import RedisServer.Requests
import RedisServer.Lib.Traces

/-!
# What the keyspace is: a map of stacks

Seen by its clients, the keyspace maps each key to a stack.  `set` pushes a new slot, also on a key
that has one; every other command sees the top slot of a key only; `del` and the expiry of a key
take it away, and what was under it comes to light again.

This file says so without hash tables, nodes or a heap: `Stacks.ask` is what a command does and
answers, `Stacks.Expires` a pass of the TTL loop.  The order in which `keys` lists the keyspace is
left open (`Stacks.Lists`).  Sorted sets are used through their four operations.
-/

set_option autoImplicit false

namespace RedisServer

open Runs

/-- What is stored under a key: a string, or a sorted set; and until when. -/
structure Slot where
  text : Bytes := []
  zset : Option ZSet := none
  deadline : Option UInt64 := none

/-- The slots of each key, the newest first. -/
abbrev Stacks := Bytes → List Slot

/-- A request as `do_request` understands it. -/
inductive Command where
  | keys
  | get (key : Bytes)
  | set (key val : Bytes)
  | del (key : Bytes)
  | zadd (key score name : Bytes)
  | zscore (key name : Bytes)
  | zrem (key name : Bytes)
  | zquery (key score name offset limit : Bytes)
  | expire (key ms : Bytes)
  | ttl (key : Bytes)
  | usage (text : String)
  | unknown

def Command.of : List Bytes → Command
  | [] => .unknown
  | name :: args =>
    if name = ascii "keys" then match args with
      | [] => .keys
      | _ => .unknown
    else if name = ascii "get" then match args with
      | [key] => .get key
      | _ => .unknown
    else if name = ascii "set" then match args with
      | [key, val] => .set key val
      | _ => .unknown
    else if name = ascii "del" then match args with
      | [key] => .del key
      | _ => .unknown
    else if name = ascii "zadd" then match args with
      | [key, score, name] => .zadd key score name
      | _ => .usage "Usage: zadd <key> <score> <name>"
    else if name = ascii "zscore" then match args with
      | [key, name] => .zscore key name
      | _ => .usage "Usage: zscore <key> <name>"
    else if name = ascii "zrem" then match args with
      | [key, name] => .zrem key name
      | _ => .usage "Usage: zrem <key> <name>"
    else if name = ascii "zquery" then match args with
      | [key, score, name, offset, limit] => .zquery key score name offset limit
      | _ => .usage "Usage: zquery <key> <score> <name> <offset> <limit>"
    else if name = ascii "expire" then match args with
      | [key, ms] => .expire key ms
      | _ => .unknown
    else if name = ascii "ttl" then match args with
      | [key] => .ttl key
      | _ => .unknown
    else .unknown

namespace Stacks

variable {S S' : Stacks} {key : Bytes}

/-- Nothing is stored. -/
def empty : Stacks := fun _ => []

/-- The slot that the commands see. -/
def top (S : Stacks) (key : Bytes) : Option Slot := (S key).head?

/-- The sorted set under a key, if that is what it holds. -/
def setAt (S : Stacks) (key : Bytes) : Option ZSet := (S.top key).bind Slot.zset

def put (S : Stacks) (key : Bytes) (slots : List Slot) : Stacks := Function.update S key slots

def push (S : Stacks) (key : Bytes) (slot : Slot) : Stacks := S.put key (slot :: S key)

def pop (S : Stacks) (key : Bytes) : Stacks := S.put key (S key).tail

/-- The top slot is replaced. -/
def setTop (S : Stacks) (key : Bytes) (slot : Slot) : Stacks := S.put key (slot :: (S key).tail)

/-- The sorted set of the top slot is replaced. -/
def setZSet (S : Stacks) (key : Bytes) (z : ZSet) : Stacks :=
  match S.top key with
  | none => S
  | some slot => S.setTop key { slot with zset := some z }

/-- No key has more than one slot. -/
def Flat (S : Stacks) : Prop := ∀ key, (S key).length ≤ 1

/-- `ks` has each key as often as it is stored. -/
def Lists (S : Stacks) (ks : List Bytes) : Prop := ∀ key, ks.count key = (S key).length

/-- A command: what it does, its result code and its output.  `ks` is the order in which the
keyspace is listed. -/
def ask (lim : Limits) (now : UInt64) (ks : List Bytes) (S : Stacks) :
    Command → Res (Stacks × ResCode × Bytes)
  | .keys => .ok (S, .RES_OK, ks.foldl outStr (outArr [] ks.length))
  | .get key =>
    match S.top key with
    | none => .ok (S, .RES_NX, outInt [] 2)
    | some slot => do
      assert (decide (slot.text.length ≤ maxMsg))
      return (S, .RES_OK, outStr [] slot.text)
  | .set key val => .ok (S.push key { text := val }, .RES_OK, outInt [] 0)
  | .del key =>
    match S.top key with
    | none => .ok (S, .RES_OK, outInt [] 0)
    | some _ => .ok (S.pop key, .RES_OK, outInt [] 1)
  | .zadd key score name => do
    let score ← stod score
    match S.top key with
    | none =>
      let (z, added) ← zsetAdd lim {} name score
      return (S.push key { zset := some z }, .RES_OK, outInt [] (if added then 1 else 0))
    | some slot =>
      match slot.zset with
      | none => .error .nullZSet
      | some z =>
        let (z, added) ← zsetAdd lim z name score
        return (S.setZSet key z, .RES_OK, outInt [] (if added then 1 else 0))
  | .zscore key name =>
    match S.setAt key with
    | none => .ok (S, .RES_NX, outNil [])
    | some z => do
      let (z, member) ← zsetLookup z name
      match member with
      | none => return (S.setZSet key z, .RES_NX, outNil [])
      | some p => return (S.setZSet key z, .RES_OK, outDbl [] (← z.nodes.read p).score)
  | .zrem key name =>
    match S.setAt key with
    | none => .ok (S, .RES_OK, outInt [] 0)
    | some z => do
      let (z, member) ← zsetPop lim z name
      match member with
      | none => return (S.setZSet key z, .RES_OK, outInt [] 0)
      | some p => return (S.setZSet key (znodeDel z p), .RES_OK, outInt [] 1)
  | .zquery key score name offset limit =>
    match S.setAt key with
    | none => .ok (S, .RES_NX, [])
    | some z => do
      let score ← stod score
      let offset ← stoll offset
      let limit ← stoll limit
      let first ← znodeOffset lim z (← zsetQuery lim z score name) offset
      let out ← queryLoop lim z (limit % 2 ^ 32).toNat lim.steps first 0 []
      return (S, .RES_OK, out)
  | .expire key ms =>
    match str2int ms with
    | none => .ok (S, .RES_ERR, outErr [] 1 (ascii "expect int64"))
    | some ttlMs =>
      match S.top key with
      | none => .ok (S, .RES_OK, outInt [] 0)
      | some slot =>
        let deadline := if ttlMs < 0 then none else some (now + UInt64.ofInt ttlMs * 1000)
        .ok (S.setTop key { slot with deadline := deadline }, .RES_OK, outInt [] 1)
  | .ttl key =>
    match S.top key with
    | none => .ok (S, .RES_OK, outInt [] (-2))
    | some slot =>
      match slot.deadline with
      | none => .ok (S, .RES_OK, outInt [] (-1))
      | some d => .ok (S, .RES_OK, outInt [] (if d > now then ((d - now) / 1000).toNat else 0))
  | .usage text => .ok (S, .RES_ERR, outErr [] 1 (ascii text))
  | .unknown => .ok (S, .RES_ERR, [])

/-- No deadline lies before `d`. -/
def NoneBefore (S : Stacks) (d : UInt64) : Prop :=
  ∀ key, ∀ slot ∈ S key, ∀ d' ∈ slot.deadline, d ≤ d'

/-- At most `n` slots are taken away, each the one with the earliest deadline, as long as that has
passed. -/
inductive Expires (now : UInt64) : Nat → Stacks → Stacks → Prop where
  | full (S : Stacks) : Expires now 0 S S
  | done {n : Nat} {S : Stacks} : S.NoneBefore now → Expires now (n + 1) S S
  | drop {n : Nat} {S S' : Stacks} {key : Bytes} {slot : Slot} {d : UInt64} :
      S.top key = some slot → slot.deadline = some d → d < now → S.NoneBefore d →
      Expires now n (S.pop key) S' → Expires now (n + 1) S S'

/-- A step with its answer: a request, or a pass of the TTL loop. -/
inductive Step (lim : Limits) (S : Stacks) : Event × Option (ResCode × Bytes) → Stacks → Prop where
  | request {S' : Stacks} {now : UInt64} {cmd ks : List Bytes} {code : ResCode} {out : Bytes} :
      S.Lists ks → S.ask lim now ks (.of cmd) = .ok (S', code, out) →
      Step lim S (.request now cmd, some (code, out)) S'
  | timers {S' : Stacks} {now : UInt64} :
      Expires now (maxWorks + 1) S S' → Step lim S (.timers now, none) S'

end Stacks

end RedisServer
