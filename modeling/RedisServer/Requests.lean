import RedisServer.Commands
import RedisServer.TtlHeapInv
import RedisServer.HashTableInv

/-!
# What a request can do to the data

`doRequest_effect` goes through the handlers once and lists, as the constructors of `Effect`, the
ways in which a request that returns changes `GlobalData`.  Every invariant of the keyspace is
proved by going through this list.  `serve` is the step function of a history of requests and
timer passes.
-/

set_option autoImplicit false

namespace RedisServer

open Runs

/-- The key a request passes to `hm_lookup` or `hm_delete`, if its handler gets that far. -/
def looksUp : List Bytes → Option Bytes
  | [c, key] =>
    if c = ascii "get" ∨ c = ascii "ttl" ∨ c = ascii "del" then some key else none
  | [c, key, a] =>
    if c = ascii "zscore" ∨ c = ascii "zrem" ∨ c = ascii "expire" ∧ (str2int a).isSome then some key
    else none
  | [c, key, s, _] => if c = ascii "zadd" ∧ (stod s).toOption.isSome then some key else none
  | [c, key, _, _, _, _] => if c = ascii "zquery" then some key else none
  | _ => none

theorem looksUp_two {c key : Bytes} (h : c = ascii "get" ∨ c = ascii "ttl" ∨ c = ascii "del") :
    looksUp [c, key] = some key := if_pos h

theorem looksUp_three {c key a : Bytes}
    (h : c = ascii "zscore" ∨ c = ascii "zrem" ∨ c = ascii "expire" ∧ (str2int a).isSome) :
    looksUp [c, key, a] = some key := if_pos h

theorem looksUp_four {c key s name : Bytes} (h : c = ascii "zadd" ∧ (stod s).toOption.isSome) :
    looksUp [c, key, s, name] = some key := if_pos h

theorem looksUp_six {c key s name off limit : Bytes} (h : c = ascii "zquery") :
    looksUp [c, key, s, name, off, limit] = some key := if_pos h

/-- How a request served at `now` changes the data. -/
inductive Effect (now : UInt64) (g : GlobalData) : List Bytes → GlobalData → Prop where
  | idle {cmd : List Bytes} : Effect now g cmd g
  | looked {cmd : List Bytes} {key : Bytes} {g' : GlobalData} {r : Option Ptr} :
      looksUp cmd = some key → lookupEntry g key = .ok (g', r) → Effect now g cmd g'
  | ranked {cmd : List Bytes} {key : Bytes} {g₁ : GlobalData} {p : Ptr} {e : Entry} (z : ZSet) :
      looksUp cmd = some key → lookupEntry g key = .ok (g₁, some p) → g₁.entries p = some e →
      e.zset.isSome →
      Effect now g cmd { g₁ with entries := g₁.entries.write p { e with zset := some z } }
  | timed {key s : Bytes} {ttlMs : Int} {g₁ g' : GlobalData} {p : Ptr} :
      str2int s = some ttlMs → lookupEntry g key = .ok (g₁, some p) →
      entrySetTtl g₁ p ttlMs now = .ok g' → Effect now g [ascii "expire", key, s] g'
  | stored {key val : Bytes} {g' : GlobalData} {p : Ptr} :
      insertEntry g key val 0 none = .ok (g', p) → Effect now g [ascii "set", key, val] g'
  | added {key s name : Bytes} {score : Dbl} {g₁ g₂ : GlobalData} {p : Ptr} {e : Entry}
      (z : ZSet) :
      stod s = .ok score → lookupEntry g key = .ok (g₁, none) →
      insertEntry g₁ key [] 1 (some {}) = .ok (g₂, p) → g₂.entries p = some e →
      Effect now g [ascii "zadd", key, s, name]
        { g₂ with entries := g₂.entries.write p { e with zset := some z } }
  | missed {key : Bytes} {db : HMap} :
      hmDelete g.db (strHash key) (entryEq g.entries key) = .ok (db, none) →
      Effect now g [ascii "del", key] { g with db := db }
  | deleted {key : Bytes} {db : HMap} {node : HNode} {g' : GlobalData} :
      hmDelete g.db (strHash key) (entryEq g.entries key) = .ok (db, some node) →
      entryDel { g with db := db } node.ptr = .ok g' → Effect now g [ascii "del", key] g'

variable {lim : Limits} {now : UInt64} {g g' : GlobalData} {out out' : Bytes} {code : ResCode}

theorem zsetOf_ok {e : Entry} {z : ZSet} : zsetOf e = .ok z ↔ e.zset = some z := by
  unfold zsetOf; cases e.zset <;> simp

theorem bind_arg {α : Type} {cmd : List Bytes} {i : Nat} {f : Bytes → Res α} (s : Bytes)
    (hs : cmd[i]? = some s) : arg cmd i >>= f = f s := by
  simp [arg, hs]

theorem doGet_looked {key : Bytes}
    (h : doGet g [ascii "get", key] out = .ok (g', code, out')) :
    ∃ r, lookupEntry g key = .ok (g', r) := by
  unfold doGet at h
  rw [bind_arg key rfl] at h
  obtain ⟨⟨g₁, r⟩, hl, h⟩ := bind_ok.mp h
  refine ⟨r, hl.trans ?_⟩
  cases r with
  | none => cases h; rfl
  | some p =>
    obtain ⟨e, -, h⟩ := bind_ok.mp h
    obtain ⟨-, -, h⟩ := bind_ok.mp h
    cases h; rfl

theorem doGet_effect {key : Bytes}
    (h : doGet g [ascii "get", key] out = .ok (g', code, out')) :
    Effect now g [ascii "get", key] g' := by
  obtain ⟨r, hl⟩ := doGet_looked h
  exact .looked (looksUp_two (.inl rfl)) hl

theorem doKeys_same {cmd : List Bytes} (h : doKeys g cmd out = .ok (g', code, out')) : g' = g := by
  obtain ⟨ns₁, -, h⟩ := bind_ok.mp h
  obtain ⟨o₁, -, h⟩ := bind_ok.mp h
  obtain ⟨ns₂, -, h⟩ := bind_ok.mp h
  obtain ⟨o₂, -, h⟩ := bind_ok.mp h
  cases h
  rfl

theorem doKeys_effect {cmd : List Bytes} (h : doKeys g cmd out = .ok (g', code, out')) :
    Effect now g cmd g' := doKeys_same h ▸ .idle

theorem doSet_effect {key val : Bytes}
    (h : doSet g [ascii "set", key, val] out = .ok (g', code, out')) :
    Effect now g [ascii "set", key, val] g' := by
  unfold doSet at h
  rw [bind_arg key rfl, bind_arg val rfl] at h
  obtain ⟨⟨g₁, p⟩, hi, h⟩ := bind_ok.mp h
  cases h
  exact .stored hi

theorem doDel_effect {key : Bytes} (h : doDel g [ascii "del", key] out = .ok (g', code, out')) :
    Effect now g [ascii "del", key] g' := by
  unfold doDel at h
  rw [bind_arg key rfl] at h
  obtain ⟨⟨db, r⟩, hd, h⟩ := bind_ok.mp h
  cases r with
  | none => cases h; exact .missed hd
  | some node =>
    obtain ⟨g₁, he, h⟩ := bind_ok.mp h
    cases h
    exact .deleted hd he

theorem doZadd_effect {cmd : List Bytes} (hname : cmd.head? = some (ascii "zadd"))
    (h : doZadd lim g cmd out = .ok (g', code, out')) : Effect now g cmd g' := by
  unfold doZadd at h
  split at h
  · cases h; exact .idle
  · rename_i hlen
    match cmd, hname, Decidable.not_not.mp hlen with
    | [_, key, s, name], rfl, _ =>
      rw [bind_arg s rfl] at h
      obtain ⟨score, hs, h⟩ := bind_ok.mp h
      rw [bind_arg name rfl, bind_arg key rfl] at h
      obtain ⟨⟨g₁, r⟩, hl, h⟩ := bind_ok.mp h
      obtain ⟨⟨g₂, p⟩, hz, h⟩ := bind_ok.mp h
      obtain ⟨e, he, h⟩ := bind_ok.mp h
      obtain ⟨z, hzs, h⟩ := bind_ok.mp h
      obtain ⟨⟨z', added⟩, -, h⟩ := bind_ok.mp h
      cases h
      have he := Store.read_ok.mp he
      cases r with
      | none => exact .added z' hs hl hz he
      | some q =>
        cases hz
        exact .ranked z' (looksUp_four ⟨rfl, by rw [hs]; rfl⟩) hl he (by simp [zsetOf_ok.mp hzs])

theorem doZscore_effect {cmd : List Bytes} (hname : cmd.head? = some (ascii "zscore"))
    (h : doZscore g cmd out = .ok (g', code, out')) : Effect now g cmd g' := by
  unfold doZscore at h
  split at h
  · cases h; exact .idle
  · rename_i hlen
    match cmd, hname, Decidable.not_not.mp hlen with
    | [_, key, name], rfl, _ =>
      have hk : looksUp [ascii "zscore", key, name] = some key := looksUp_three (.inl rfl)
      rw [bind_arg key rfl] at h
      obtain ⟨⟨g₁, r⟩, hl, h⟩ := bind_ok.mp h
      cases r with
      | none => cases h; exact .looked hk hl
      | some p =>
        obtain ⟨e, he, h⟩ := bind_ok.mp h
        have he := Store.read_ok.mp he
        split at h
        · cases h; exact .looked hk hl
        · obtain ⟨z, hz, h⟩ := bind_ok.mp h
          rw [bind_arg name rfl] at h
          obtain ⟨⟨z', r⟩, -, h⟩ := bind_ok.mp h
          have hsome : e.zset.isSome := by simp [zsetOf_ok.mp hz]
          cases r with
          | none => cases h; exact .ranked z' hk hl he hsome
          | some zn =>
            obtain ⟨n, -, h⟩ := bind_ok.mp h
            cases h
            exact .ranked z' hk hl he hsome

theorem doZrem_effect {cmd : List Bytes} (hname : cmd.head? = some (ascii "zrem"))
    (h : doZrem lim g cmd out = .ok (g', code, out')) : Effect now g cmd g' := by
  unfold doZrem at h
  split at h
  · cases h; exact .idle
  · rename_i hlen
    match cmd, hname, Decidable.not_not.mp hlen with
    | [_, key, name], rfl, _ =>
      have hk : looksUp [ascii "zrem", key, name] = some key := looksUp_three (.inr (.inl rfl))
      rw [bind_arg key rfl] at h
      obtain ⟨⟨g₁, r⟩, hl, h⟩ := bind_ok.mp h
      cases r with
      | none => cases h; exact .looked hk hl
      | some p =>
        obtain ⟨e, he, h⟩ := bind_ok.mp h
        have he := Store.read_ok.mp he
        split at h
        · cases h; exact .looked hk hl
        · obtain ⟨z, hz, h⟩ := bind_ok.mp h
          rw [bind_arg name rfl] at h
          obtain ⟨⟨z', r⟩, -, h⟩ := bind_ok.mp h
          have hsome : e.zset.isSome := by simp [zsetOf_ok.mp hz]
          cases r with
          | none => cases h; exact .ranked z' hk hl he hsome
          | some zn => cases h; exact .ranked _ hk hl he hsome

theorem doQuery_looked {cmd : List Bytes} (hname : cmd.head? = some (ascii "zquery"))
    (h : doQuery lim g cmd out = .ok (g', code, out')) :
    g' = g ∨ ∃ key r, looksUp cmd = some key ∧ lookupEntry g key = .ok (g', r) := by
  unfold doQuery at h
  split at h
  · cases h; exact .inl rfl
  · rename_i hlen
    match cmd, hname, Decidable.not_not.mp hlen with
    | [_, key, s, name, off, limit], rfl, _ =>
      rw [bind_arg key rfl] at h
      obtain ⟨⟨g₁, r⟩, hl, h⟩ := bind_ok.mp h
      refine .inr ⟨key, r, looksUp_six rfl, hl.trans ?_⟩
      cases r with
      | none => cases h; rfl
      | some p =>
        obtain ⟨e, -, h⟩ := bind_ok.mp h
        split at h
        · cases h; rfl
        · rw [bind_arg s rfl] at h
          obtain ⟨score, -, h⟩ := bind_ok.mp h
          rw [bind_arg name rfl, bind_arg off rfl] at h
          obtain ⟨o, -, h⟩ := bind_ok.mp h
          rw [bind_arg limit rfl] at h
          obtain ⟨l, -, h⟩ := bind_ok.mp h
          obtain ⟨z, -, h⟩ := bind_ok.mp h
          obtain ⟨zn, -, h⟩ := bind_ok.mp h
          obtain ⟨zn', -, h⟩ := bind_ok.mp h
          obtain ⟨out₁, -, h⟩ := bind_ok.mp h
          cases h; rfl

theorem doQuery_effect {cmd : List Bytes} (hname : cmd.head? = some (ascii "zquery"))
    (h : doQuery lim g cmd out = .ok (g', code, out')) : Effect now g cmd g' := by
  rcases doQuery_looked hname h with rfl | ⟨key, r, hk, hl⟩
  · exact .idle
  · exact .looked hk hl

theorem doExpire_effect {key s : Bytes}
    (h : doExpire g now [ascii "expire", key, s] out = .ok (g', code, out')) :
    Effect now g [ascii "expire", key, s] g' := by
  unfold doExpire at h
  rw [bind_arg s rfl] at h
  cases ht : str2int s with
  | none => rw [ht] at h; cases h; exact .idle
  | some ttlMs =>
    rw [ht] at h
    dsimp only at h
    rw [bind_arg key rfl] at h
    obtain ⟨⟨g₁, r⟩, hl, h⟩ := bind_ok.mp h
    cases r with
    | none =>
      cases h
      exact .looked (looksUp_three (.inr (.inr ⟨rfl, by rw [ht]; rfl⟩))) hl
    | some p =>
      obtain ⟨g₂, he, h⟩ := bind_ok.mp h
      cases h
      exact .timed ht hl he

theorem doTtl_looked {key : Bytes} (h : doTtl g now [ascii "ttl", key] out = .ok (g', code, out')) :
    ∃ r, lookupEntry g key = .ok (g', r) := by
  unfold doTtl at h
  rw [bind_arg key rfl] at h
  obtain ⟨⟨g₁, r⟩, hl, h⟩ := bind_ok.mp h
  refine ⟨r, hl.trans ?_⟩
  cases r with
  | none => cases h; rfl
  | some p =>
    obtain ⟨e, -, h⟩ := bind_ok.mp h
    split at h
    · cases h; rfl
    · obtain ⟨x, -, h⟩ := bind_ok.mp h
      cases h; rfl

theorem doTtl_effect {key : Bytes} (h : doTtl g now [ascii "ttl", key] out = .ok (g', code, out')) :
    Effect now g [ascii "ttl", key] g' := by
  obtain ⟨r, hl⟩ := doTtl_looked h
  exact .looked (looksUp_two (.inr (.inl rfl))) hl

theorem two_args {c : Bytes} {cmd : List Bytes} (h : (c :: cmd).length = 2) :
    ∃ key, cmd = [key] := by
  match cmd, h with
  | [key], _ => exact ⟨key, rfl⟩

theorem three_args {c : Bytes} {cmd : List Bytes} (h : (c :: cmd).length = 3) :
    ∃ key a, cmd = [key, a] := by
  match cmd, h with
  | [key, a], _ => exact ⟨key, a, rfl⟩

/-- `do_request` has a handler for this name and this number of arguments. -/
def Known (cmd : List Bytes) : Prop :=
  ∃ name ∈ cmd.head?,
    name = ascii "keys" ∧ cmd.length = 1 ∨ name = ascii "get" ∧ cmd.length = 2 ∨
    name = ascii "set" ∧ cmd.length = 3 ∨ name = ascii "del" ∧ cmd.length = 2 ∨
    name = ascii "zadd" ∨ name = ascii "zscore" ∨ name = ascii "zrem" ∨ name = ascii "zquery" ∨
    name = ascii "expire" ∧ cmd.length = 3 ∨ name = ascii "ttl" ∧ cmd.length = 2

instance (cmd : List Bytes) : Decidable (Known cmd) := inferInstanceAs (Decidable (∃ _ ∈ _, _))

/-- **Dispatch.** A request is one of the ten commands, or none of them and answered with a bare
`RES_ERR`. -/
theorem doRequest_cases {motive : List Bytes → Handled → Prop}
    (keys : motive [ascii "keys"] (doKeys g [ascii "keys"] out))
    (get : ∀ key, motive [ascii "get", key] (doGet g [ascii "get", key] out))
    (set : ∀ key val, motive [ascii "set", key, val] (doSet g [ascii "set", key, val] out))
    (del : ∀ key, motive [ascii "del", key] (doDel g [ascii "del", key] out))
    (zadd : ∀ args, motive (ascii "zadd" :: args) (doZadd lim g (ascii "zadd" :: args) out))
    (zscore : ∀ args, motive (ascii "zscore" :: args) (doZscore g (ascii "zscore" :: args) out))
    (zrem : ∀ args, motive (ascii "zrem" :: args) (doZrem lim g (ascii "zrem" :: args) out))
    (zquery : ∀ args, motive (ascii "zquery" :: args) (doQuery lim g (ascii "zquery" :: args) out))
    (expire : ∀ key s,
      motive [ascii "expire", key, s] (doExpire g now [ascii "expire", key, s] out))
    (ttl : ∀ key, motive [ascii "ttl", key] (doTtl g now [ascii "ttl", key] out))
    (unknown : ∀ cmd, ¬Known cmd → motive cmd (.ok (g, .RES_ERR, out)))
    (cmd : List Bytes) : motive cmd (doRequest lim now g cmd out) := by
  cases cmd with
  | nil => exact unknown [] (by rintro ⟨_, h, -⟩; cases h)
  | cons c args =>
    unfold doRequest
    dsimp only
    by_cases hkeys : c = ascii "keys" ∧ (c :: args).length = 1
    · rw [if_pos hkeys]
      obtain ⟨rfl, hlen⟩ := hkeys
      obtain rfl := List.length_eq_zero_iff.mp (Nat.succ.inj hlen)
      exact keys
    rw [if_neg hkeys]
    by_cases hget : c = ascii "get" ∧ (c :: args).length = 2
    · rw [if_pos hget]
      obtain ⟨rfl, hlen⟩ := hget
      obtain ⟨key, rfl⟩ := two_args hlen
      exact get key
    rw [if_neg hget]
    by_cases hset : c = ascii "set" ∧ (c :: args).length = 3
    · rw [if_pos hset]
      obtain ⟨rfl, hlen⟩ := hset
      obtain ⟨key, val, rfl⟩ := three_args hlen
      exact set key val
    rw [if_neg hset]
    by_cases hdel : c = ascii "del" ∧ (c :: args).length = 2
    · rw [if_pos hdel]
      obtain ⟨rfl, hlen⟩ := hdel
      obtain ⟨key, rfl⟩ := two_args hlen
      exact del key
    rw [if_neg hdel]
    by_cases hzadd : c = ascii "zadd"
    · rw [if_pos hzadd, hzadd]
      exact zadd args
    rw [if_neg hzadd]
    by_cases hzscore : c = ascii "zscore"
    · rw [if_pos hzscore, hzscore]
      exact zscore args
    rw [if_neg hzscore]
    by_cases hzrem : c = ascii "zrem"
    · rw [if_pos hzrem, hzrem]
      exact zrem args
    rw [if_neg hzrem]
    by_cases hzquery : c = ascii "zquery"
    · rw [if_pos hzquery, hzquery]
      exact zquery args
    rw [if_neg hzquery]
    by_cases hexpire : c = ascii "expire" ∧ (c :: args).length = 3
    · rw [if_pos hexpire]
      obtain ⟨rfl, hlen⟩ := hexpire
      obtain ⟨key, s, rfl⟩ := three_args hlen
      exact expire key s
    rw [if_neg hexpire]
    by_cases httl : c = ascii "ttl" ∧ (c :: args).length = 2
    · rw [if_pos httl]
      obtain ⟨rfl, hlen⟩ := httl
      obtain ⟨key, rfl⟩ := two_args hlen
      exact ttl key
    rw [if_neg httl]
    refine unknown _ ?_
    rintro ⟨name, hname, hk⟩
    cases hname
    rcases hk with hk | hk | hk | hk | hk | hk | hk | hk | hk | hk
    exacts [hkeys hk, hget hk, hset hk, hdel hk, hzadd hk, hzscore hk, hzrem hk, hzquery hk,
      hexpire hk, httl hk]

/-- **Inversion of `do_request`.** -/
theorem doRequest_effect {cmd : List Bytes}
    (h : doRequest lim now g cmd out = .ok (g', code, out')) : Effect now g cmd g' := by
  revert h
  refine doRequest_cases (motive := fun cmd r => r = .ok (g', code, out') → Effect now g cmd g')
    ?keys ?get ?set ?del ?zadd ?zscore ?zrem ?zquery ?expire ?ttl ?unknown cmd
  case keys => exact doKeys_effect
  case get => exact fun _ => doGet_effect
  case set => exact fun _ _ => doSet_effect
  case del => exact fun _ => doDel_effect
  case zadd => exact fun _ => doZadd_effect rfl
  case zscore => exact fun _ => doZscore_effect rfl
  case zrem => exact fun _ => doZrem_effect rfl
  case zquery => exact fun _ => doQuery_effect rfl
  case expire => exact fun _ _ => doExpire_effect
  case ttl => exact fun _ => doTtl_effect
  case unknown =>
    intro cmd _ h
    cases h
    exact .idle

/-! ## Histories -/

/-- What the event loop does to the data: serve a request, or run `process_timers`. -/
inductive Event where
  | request (now : UInt64) (cmd : List Bytes)
  | timers (now : UInt64)

def serve (lim : Limits) (g : GlobalData) : Event → Res GlobalData
  | .request now cmd => do return (← doRequest lim now g cmd []).1
  | .timers now => processTimers g now

theorem serve_request {cmd : List Bytes} :
    serve lim g (.request now cmd) = .ok g' ↔
      ∃ code out, doRequest lim now g cmd [] = .ok (g', code, out) := by
  unfold serve
  rw [bind_ok]
  constructor
  · rintro ⟨⟨g₁, code, out⟩, h, h'⟩
    cases h'
    exact ⟨code, out, h⟩
  · rintro ⟨code, out, h⟩
    exact ⟨_, h, rfl⟩

/-- Result code and output of a request. -/
def answer (lim : Limits) (now : UInt64) (g : GlobalData) (cmd : List Bytes) :
    Option (ResCode × Bytes) :=
  (doRequest lim now g cmd []).toOption.map Prod.snd

theorem answer_eq_some {cmd : List Bytes} {r : ResCode × Bytes} :
    answer lim now g cmd = some r ↔ ∃ g', doRequest lim now g cmd [] = .ok (g', r) := by
  unfold answer
  cases doRequest lim now g cmd [] with
  | error f => simp [Except.toOption]
  | ok x => obtain ⟨g', r'⟩ := x; simp [Except.toOption]

/-- `cond` holds whenever the TTL loop is about to remove an entry. -/
def EachExpiry (now : UInt64) (cond : GlobalData → Prop) : Nat → GlobalData → Prop
  | 0, _ => True
  | n + 1, g =>
    match g.heap with
    | [] => True
    | top :: _ => top.val < now → cond g ∧
      match expireTop g with
      | .ok g' => EachExpiry now cond n g'
      | .error _ => True

/-- A condition on histories: `req` on requests, `exp` on the removals of the TTL loop. -/
def Event.Meets (req : GlobalData → List Bytes → Prop) (exp : GlobalData → Prop)
    (g : GlobalData) : Event → Prop
  | .request _ cmd => req g cmd
  | .timers now => EachExpiry now exp (maxWorks + 1) g

instance EachExpiry.decidable {cond : GlobalData → Prop} [∀ g, Decidable (cond g)] :
    ∀ (n : Nat) (g : GlobalData), Decidable (EachExpiry now cond n g)
  | 0, _ => .isTrue trivial
  | n + 1, g =>
    match h : g.heap with
    | [] => .isTrue (by unfold EachExpiry; rw [h]; trivial)
    | top :: rest =>
      have : Decidable (match expireTop g with
          | .ok g' => EachExpiry now cond n g'
          | .error _ => True) :=
        match expireTop g with
        | .ok g' => EachExpiry.decidable n g'
        | .error _ => .isTrue trivial
      decidable_of_iff (top.val < now → cond g ∧
        match expireTop g with
        | .ok g' => EachExpiry now cond n g'
        | .error _ => True) (by conv_rhs => unfold EachExpiry
                                rw [h])

instance {req : GlobalData → List Bytes → Prop} {exp : GlobalData → Prop}
    [∀ g cmd, Decidable (req g cmd)] [∀ g, Decidable (exp g)] (g : GlobalData) :
    (ev : Event) → Decidable (ev.Meets req exp g)
  | .request _ cmd => inferInstanceAs (Decidable (req g cmd))
  | .timers now => inferInstanceAs (Decidable (EachExpiry now exp (maxWorks + 1) g))

theorem eachExpiry_succ {cond : GlobalData → Prop} {n : Nat} :
    EachExpiry now cond (n + 1) g ↔
      ∀ top rest, g.heap = top :: rest → top.val < now →
        cond g ∧ ∀ g', expireTop g = .ok g' → EachExpiry now cond n g' := by
  rw [EachExpiry]
  cases g.heap with
  | nil => simp
  | cons top rest => cases expireTop g <;> simp

theorem EachExpiry.mono {cond cond' : GlobalData → Prop} (hc : ∀ g, cond g → cond' g) :
    ∀ {n : Nat} {g : GlobalData}, EachExpiry now cond n g → EachExpiry now cond' n g
  | 0, _, _ => trivial
  | n + 1, g, h => by
    rw [eachExpiry_succ] at h ⊢
    intro top rest hg hdue
    obtain ⟨h₁, h₂⟩ := h top rest hg hdue
    exact ⟨hc g h₁, fun g' hg' => (h₂ g' hg').mono hc⟩

theorem eachExpiry_true : ∀ (n : Nat) (g : GlobalData), EachExpiry now (fun _ => True) n g
  | 0, _ => trivial
  | n + 1, _ => eachExpiry_succ.mpr fun _ _ _ _ => ⟨trivial, fun g' _ => eachExpiry_true n g'⟩

theorem Event.Meets.mono {req req' : GlobalData → List Bytes → Prop} {exp exp' : GlobalData → Prop}
    (hr : ∀ g cmd, req g cmd → req' g cmd) (he : ∀ g, exp g → exp' g) {ev : Event}
    (h : ev.Meets req exp g) : ev.Meets req' exp' g := by
  cases ev with
  | request now cmd => exact hr g cmd h
  | timers now => exact EachExpiry.mono he h

theorem EachExpiry.and {cond cond' : GlobalData → Prop} :
    ∀ {n : Nat} {g : GlobalData}, EachExpiry now cond n g → EachExpiry now cond' n g →
      EachExpiry now (fun g => cond g ∧ cond' g) n g
  | 0, _, _, _ => trivial
  | n + 1, g, h, h' => by
    rw [eachExpiry_succ] at h h' ⊢
    intro top rest hg hdue
    obtain ⟨h₁, h₂⟩ := h top rest hg hdue
    obtain ⟨h₁', h₂'⟩ := h' top rest hg hdue
    exact ⟨⟨h₁, h₁'⟩, fun g' hg' => (h₂ g' hg').and (h₂' g' hg')⟩

/-- What an invariant of the TTL loop implies, holds at each of its removals. -/
theorem eachExpiry_of {I cond : GlobalData → Prop} (hcond : ∀ g, I g → cond g)
    (hstep : ∀ g g', I g → expireTop g = .ok g' → I g') :
    ∀ {n : Nat} {g : GlobalData}, I g → EachExpiry now cond n g
  | 0, _, _ => trivial
  | _ + 1, g, hi => eachExpiry_succ.mpr fun _ _ _ _ =>
    ⟨hcond g hi, fun _ h => eachExpiry_of hcond hstep (hstep _ _ hi h)⟩

theorem Event.Meets.and {req req' : GlobalData → List Bytes → Prop} {exp exp' : GlobalData → Prop}
    {ev : Event} (h : ev.Meets req exp g) (h' : ev.Meets req' exp' g) :
    ev.Meets (fun g cmd => req g cmd ∧ req' g cmd) (fun g => exp g ∧ exp' g) g := by
  cases ev with
  | request now cmd => exact ⟨h, h'⟩
  | timers now => exact EachExpiry.and h h'

/-- What an iteration of the TTL loop preserves, the loop preserves. -/
theorem expireLoop_invariant {cond I : GlobalData → Prop}
    (hstep : ∀ g g', I g → cond g → expireTop g = .ok g' → I g') :
    ∀ {n : Nat} {g g' : GlobalData}, I g → EachExpiry now cond n g →
      expireLoop now n g = .ok g' → I g'
  | 0, _, _, hi, _, h => by cases h; exact hi
  | n + 1, g, g', hi, hc, h => by
    rw [eachExpiry_succ] at hc
    unfold expireLoop at h
    cases hg : g.heap with
    | nil => rw [hg] at h; cases h; exact hi
    | cons top rest =>
      rw [hg] at h
      dsimp only at h
      split at h
      · rename_i hdue
        obtain ⟨g₁, h₁, h⟩ := bind_ok.mp h
        obtain ⟨hcg, hcs⟩ := hc top rest hg hdue
        exact expireLoop_invariant hstep (hstep g g₁ hi hcg h₁) (hcs g₁ h₁) h
      · cases h; exact hi

/-- **Step rule.** What requests and single expiries preserve under a condition, the steps that
meet the condition preserve. -/
theorem serve_invariant {req : GlobalData → List Bytes → Prop} {exp I : GlobalData → Prop}
    (hreq : ∀ now g cmd g', I g → req g cmd → Effect now g cmd g' → I g')
    (hexp : ∀ g g', I g → exp g → expireTop g = .ok g' → I g') {ev : Event}
    (hi : I g) (hc : ev.Meets req exp g) (h : serve lim g ev = .ok g') : I g' := by
  cases ev with
  | request now cmd =>
    obtain ⟨code, out, h⟩ := serve_request.mp h
    exact hreq now g cmd g' hi hc (doRequest_effect h)
  | timers now => exact expireLoop_invariant hexp hi hc h

theorem meets_true (g : GlobalData) (ev : Event) :
    ev.Meets (fun _ _ => True) (fun _ => True) g := by
  cases ev with
  | request now cmd => trivial
  | timers now => exact eachExpiry_true _ g

/-! ## The keys a request deletes, stores or adds -/

def deletedKey : List Bytes → Option Bytes
  | [c, key] => if c = ascii "del" then some key else none
  | _ => none

def setKey : List Bytes → Option Bytes
  | [c, key, _] => if c = ascii "set" then some key else none
  | _ => none

def zaddKey : List Bytes → Option Bytes
  | [c, key, _, _] => if c = ascii "zadd" then some key else none
  | _ => none

@[simp] theorem deletedKey_del (key : Bytes) : deletedKey [ascii "del", key] = some key := by
  simp [deletedKey]

@[simp] theorem setKey_set (key val : Bytes) : setKey [ascii "set", key, val] = some key := by
  simp [setKey]

@[simp] theorem zaddKey_zadd (key s name : Bytes) :
    zaddKey [ascii "zadd", key, s, name] = some key := by
  simp [zaddKey]

/-- The entry a lookup of `key` finds. -/
def GlobalData.resolve (g : GlobalData) (key : Bytes) : Option Entry :=
  match lookupEntry g key with
  | .ok (g', some p) => g'.entries p
  | _ => none

end RedisServer
