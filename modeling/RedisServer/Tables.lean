import RedisServer.Stacks
import RedisServer.Scores
import RedisServer.RangeQuery

/-!
# A table of texts and score maps

The keyspace as a user of the server thinks of it: under each key nothing, a text or a map from
names to scores, with a deadline or none.  Hash tables, trees, addresses and the stacks of `Stacks`
are gone; `zadd` and `zscore` read and write the score map.

What `zquery` writes is an argument (`found`) of `Table.ask`; `Table.Finds` says what it should be,
a window of the members in increasing order.
-/

set_option autoImplicit false

namespace RedisServer

inductive Content where
  | text (val : Bytes)
  | scores (members : Scores)

structure Item where
  content : Content
  deadline : Option UInt64 := none

abbrev Table := Bytes → Option Item

/-- What `get` writes: of a score map it finds no text. -/
def Content.shown : Content → Bytes
  | .text val => val
  | .scores _ => []

namespace Scores

/-- `l` has each member of the map, in increasing order. -/
def Listing (m : Scores) (l : List ZNode) : Prop :=
  InOrder l ∧ ∀ z, z ∈ l ↔ z.hcode = strHash z.name ∧ m z.name = some z.score

/-- `found` shows at most `limit` members, from the one that is `offset` ranks behind the smallest
member not below (`score`, `name`) on. -/
def Finds (m : Scores) (score : Dbl) (name : Bytes) (offset : Int) (limit : Nat) (found : Bytes) :
    Prop :=
  ∃ l, m.Listing l ∧
    found = ((fromRank (fun z => !zless z ⟨0, score, name⟩) offset l).take limit).foldl outMember []

end Scores

namespace Table

variable {T T' : Table} {key : Bytes}

def empty : Table := fun _ => none

def put (T : Table) (key : Bytes) (item : Option Item) : Table := Function.update T key item

/-- The score map under a key, if that is what it holds. -/
def scoresAt (T : Table) (key : Bytes) : Option Scores :=
  (T key).bind fun item => match item.content with
    | .scores m => some m
    | .text _ => none

/-- `ks` has each stored key once. -/
def Lists (T : Table) (ks : List Bytes) : Prop := ks.Nodup ∧ ∀ key, key ∈ ks ↔ (T key).isSome

/-- A command: what it does, its result code and its output; `none` if the server does not answer.
`ks` is the order in which the keyspace is listed, `found` what a range query writes. -/
def ask (now : UInt64) (ks : List Bytes) (found : Bytes) (T : Table) :
    Command → Option (Table × ResCode × Bytes)
  | .keys => some (T, .RES_OK, ks.foldl outStr (outArr [] ks.length))
  | .get key =>
    match T key with
    | none => some (T, .RES_NX, outInt [] 2)
    | some item =>
      if item.content.shown.length ≤ maxMsg then some (T, .RES_OK, outStr [] item.content.shown)
      else none
  | .set key val => some (T.put key (some ⟨.text val, none⟩), .RES_OK, outInt [] 0)
  | .del key =>
    match T key with
    | none => some (T, .RES_OK, outInt [] 0)
    | some _ => some (T.put key none, .RES_OK, outInt [] 1)
  | .zadd key score name => do
    let score ← (stod score).toOption
    match T key with
    | none => some (T.put key (some ⟨.scores (Scores.empty.add name score), none⟩), .RES_OK,
        outInt [] 1)
    | some ⟨.text _, _⟩ => none
    | some ⟨.scores m, deadline⟩ => some (T.put key (some ⟨.scores (m.add name score), deadline⟩),
        .RES_OK, outInt [] (if (m name).isNone then 1 else 0))
  | .zscore key name =>
    match (T.scoresAt key).bind fun m => m name with
    | none => some (T, .RES_NX, outNil [])
    | some score => some (T, .RES_OK, outDbl [] score)
  | .zrem key name =>
    match (T.scoresAt key).bind fun m => m name with
    | none => some (T, .RES_OK, outInt [] 0)
    | some _ => none
  | .zquery key score _ offset limit =>
    match T.scoresAt key with
    | none => some (T, .RES_NX, [])
    | some _ => do
      let _ ← (stod score).toOption
      let _ ← (stoll offset).toOption
      let _ ← (stoll limit).toOption
      return (T, .RES_OK, found)
  | .expire key ms =>
    match str2int ms with
    | none => some (T, .RES_ERR, outErr [] 1 (ascii "expect int64"))
    | some ttlMs =>
      match T key with
      | none => some (T, .RES_OK, outInt [] 0)
      | some item =>
        let deadline := if ttlMs < 0 then none else some (now + UInt64.ofInt ttlMs * 1000)
        some (T.put key (some { item with deadline := deadline }), .RES_OK, outInt [] 1)
  | .ttl key =>
    match T key with
    | none => some (T, .RES_OK, outInt [] (-2))
    | some item =>
      match item.deadline with
      | none => some (T, .RES_OK, outInt [] (-1))
      | some d => some (T, .RES_OK, outInt [] (if d > now then ((d - now) / 1000).toNat else 0))
  | .usage text => some (T, .RES_ERR, outErr [] 1 (ascii text))
  | .unknown => some (T, .RES_ERR, [])

/-- What a range query for stored scores writes: the members that it asks for; `limit` is read as a
`uint32_t`. -/
def Finds (T : Table) : Command → Bytes → Prop
  | .zquery key score name offset limit, found => ∀ m s o l, T.scoresAt key = some m →
      stod score = .ok s → stoll offset = .ok o → stoll limit = .ok l →
      m.Finds s name o (l % 2 ^ 32).toNat found
  | _, _ => True

/-- No deadline lies before `d`. -/
def NoneBefore (T : Table) (d : UInt64) : Prop :=
  ∀ key, ∀ item ∈ T key, ∀ d' ∈ item.deadline, d ≤ d'

/-- At most `n` items are taken away, each the one with the earliest deadline, as long as that has
passed. -/
inductive Expires (now : UInt64) : Nat → Table → Table → Prop where
  | full (T : Table) : Expires now 0 T T
  | done {n : Nat} {T : Table} : T.NoneBefore now → Expires now (n + 1) T T
  | drop {n : Nat} {T T' : Table} {key : Bytes} {item : Item} {d : UInt64} :
      T key = some item → item.deadline = some d → d < now → T.NoneBefore d →
      Expires now n (T.put key none) T' → Expires now (n + 1) T T'

/-- A step with its answer; `Q` is what is required of the range queries. -/
inductive Step (Q : Table → Command → Bytes → Prop) (T : Table) :
    Event × Option (ResCode × Bytes) → Table → Prop where
  | request {T' : Table} {now : UInt64} {cmd ks : List Bytes} {code : ResCode} {out found : Bytes} :
      T.Lists ks → Q T (.of cmd) found → T.ask now ks found (.of cmd) = some (T', code, out) →
      Step Q T (.request now cmd, some (code, out)) T'
  | timers {T' : Table} {now : UInt64} :
      Expires now (maxWorks + 1) T T' → Step Q T (.timers now, none) T'

end Table

end RedisServer
