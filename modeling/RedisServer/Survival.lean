import RedisServer.Answers

/-!
# Which requests the server survives

After a history of careful requests that came in frames, the server is able to answer
(`GlobalData.Serving`), and no text is longer than a message.  From there a request in a frame
returns unless it is one of three: a `zadd` with an unreadable score, a `zadd` to a text, a `zrem`
of a member.

Results:
* `doRequest_returns_iff` — these three are all;
* `malformed_numbers` — so `one_request` survives a frame, and closes its own connection only for a
  number that it cannot read, unless the frame is one of them;
* `oneRequest_answers_iff` — and the frames that are answered are known from the data before them.
-/

set_option autoImplicit false

namespace RedisServer

open Runs Traces GlobalData

variable {lim : Limits} {g g' : GlobalData} {key name : Bytes} {now : UInt64} {ks : List Bytes}
  {cmd : List Bytes}

/-! ## Requests in frames -/

/-- The request came in a frame. -/
def Framed (cmd : List Bytes) : Prop := ∃ rbuf k, nextRequest rbuf = some (cmd, k)

def Event.Framed : Event → Prop
  | .request _ cmd => RedisServer.Framed cmd
  | .timers _ => True

theorem parseItems_short {data : Bytes} : ∀ {n pos pos' : Nat} {cmd cmd' : List Bytes},
    parseItems data n pos cmd = .ok (some (pos', cmd')) →
    (∀ arg ∈ cmd, arg.length ≤ data.length) → ∀ arg ∈ cmd', arg.length ≤ data.length
  | 0, _, _, _, _, h, hs => by cases h; exact hs
  | n + 1, pos, _, cmd, _, h, hs => by
    unfold parseItems at h
    split at h
    · cases h
    · obtain ⟨k, -, h⟩ := bind_ok.mp h
      split at h
      · cases h
      · obtain ⟨item, hitem, h⟩ := bind_ok.mp h
        refine parseItems_short h ?_
        intro arg harg
        rcases List.mem_append.mp harg with harg | harg
        · exact hs arg harg
        · cases List.mem_singleton.mp harg
          unfold readBytes at hitem
          split at hitem
          · cases hitem
            rw [List.length_take, List.length_drop]
            omega
          · cases hitem

/-- No argument is longer than a message. -/
theorem Framed.short (h : Framed cmd) : ∀ arg ∈ cmd, arg.length ≤ maxMsg := by
  obtain ⟨rbuf, k, hn⟩ := h
  obtain ⟨len, -, -, hm, -, hp⟩ := nextRequest_some.mp hn
  have hlen : ((rbuf.drop 4).take len).length ≤ maxMsg := by
    rw [List.length_take]
    omega
  unfold parseReq at hp
  split at hp
  · cases hp
  · obtain ⟨n, -, hp⟩ := bind_ok.mp hp
    split at hp
    · cases hp
    · obtain ⟨r, hr, hp⟩ := bind_ok.mp hp
      rcases r with _ | ⟨pos, cmd'⟩
      · cases hp
      · dsimp only at hp
        split at hp
        · cases hp
        · cases hp
          intro arg harg
          exact (parseItems_short hr (fun _ h => nomatch h) arg harg).trans hlen

theorem Framed.length (h : Framed cmd) : cmd.length ≤ maxArgs := by
  obtain ⟨rbuf, k, hn⟩ := h
  exact nextRequest_length hn

/-- The arguments of a command are those of its request. -/
def Command.Reads (cmd : List Bytes) : Command → Prop
  | .set key val => cmd = [ascii "set", key, val]
  | .zadd key score name => cmd = [ascii "zadd", key, score, name]
  | .zrem key name => cmd = [ascii "zrem", key, name]
  | .zquery key score name offset limit => cmd = [ascii "zquery", key, score, name, offset, limit]
  | _ => True

theorem Command.reads_of (cmd : List Bytes) : (Command.of cmd).Reads cmd := by
  unfold Command.of
  cases cmd with
  | nil => trivial
  | cons c args =>
    dsimp only
    repeat' split
    all_goals first
      | trivial
      | (subst_vars; rfl)

theorem badScore_iff : BadScore cmd ↔
    ∃ key s name, Command.of cmd = .zadd key s name ∧ stod s = .error .exception := by
  constructor
  · intro hb
    unfold BadScore at hb
    split at hb
    · obtain ⟨rfl, hs⟩ := hb
      exact ⟨_, _, _, rfl, hs⟩
    · exact hb.elim
  · rintro ⟨key, s, name, hof, hs⟩
    have hreads := Command.reads_of cmd
    rw [hof] at hreads
    have hreads : cmd = [ascii "zadd", key, s, name] := hreads
    rw [hreads]
    exact ⟨rfl, hs⟩

/-- A `zquery` has more arguments than a frame may have. -/
theorem of_ne_zquery (hlen : cmd.length ≤ maxArgs) (key score name offset limit : Bytes) :
    Command.of cmd ≠ .zquery key score name offset limit := by
  intro hof
  have hreads := Command.reads_of cmd
  rw [hof] at hreads
  have hreads : cmd = [ascii "zquery", key, score, name, offset, limit] := hreads
  rw [hreads] at hlen
  exact absurd hlen (by simp [maxArgs])

/-! ## Texts fit in a message -/

namespace Table

variable {T T' : Table} {code : ResCode} {out found : Bytes} {Q : Table → Command → Bytes → Prop}

/-- No stored text is longer than a message. -/
def Short (T : Table) : Prop := ∀ key, ∀ item ∈ T key, item.content.shown.length ≤ maxMsg

theorem Short.put {item : Option Item} (h : T.Short)
    (hs : ∀ i ∈ item, i.content.shown.length ≤ maxMsg) : (T.put key item).Short := by
  intro k i hi
  unfold Table.put at hi
  by_cases hk : k = key
  · subst hk
    rw [Function.update_self] at hi
    exact hs i hi
  · rw [Function.update_of_ne hk] at hi
    exact h k i hi

/-- Only `set` stores a text. -/
theorem Short.ask (h : T.Short) (hset : ∀ key val, Command.of cmd = .set key val → val.length ≤ maxMsg)
    (ha : T.ask now ks found (.of cmd) = some (T', code, out)) : T'.Short := by
  generalize Command.of cmd = c at hset ha
  cases c with
  | keys | usage _ | unknown => cases ha; exact h
  | get key =>
    rw [Table.ask] at ha
    split at ha
    · cases ha; exact h
    · split at ha <;> cases ha
      exact h
  | set key val =>
    cases ha
    exact h.put fun i hi => by cases hi; exact hset key val rfl
  | del key =>
    rw [Table.ask] at ha
    split at ha <;> cases ha
    · exact h
    · exact h.put (by simp)
  | zadd key score name =>
    rw [Table.ask] at ha
    obtain ⟨s, -, ha⟩ := Option.bind_eq_some_iff.mp ha
    split at ha <;> cases ha <;> exact h.put fun i hi => by cases hi; exact Nat.zero_le _
  | zscore key name =>
    rw [Table.ask] at ha
    split at ha <;> cases ha <;> exact h
  | zrem key name =>
    rw [Table.ask] at ha
    split at ha <;> cases ha
    exact h
  | zquery key score name offset limit =>
    rw [Table.ask] at ha
    split at ha
    · cases ha; exact h
    · obtain ⟨s, -, ha⟩ := Option.bind_eq_some_iff.mp ha
      obtain ⟨o, -, ha⟩ := Option.bind_eq_some_iff.mp ha
      obtain ⟨l, -, ha⟩ := Option.bind_eq_some_iff.mp ha
      cases ha
      exact h
  | expire key ms =>
    rw [Table.ask] at ha
    split at ha
    · cases ha; exact h
    · split at ha
      · cases ha; exact h
      · rename_i item hitem
        cases ha
        exact h.put fun i hi => by cases hi; exact h key item hitem
  | ttl key =>
    rw [Table.ask] at ha
    split at ha
    · cases ha; exact h
    · split at ha <;> cases ha <;> exact h

theorem Short.expires {n : Nat} (he : Expires now n T T') (h : T.Short) : T'.Short := by
  induction he with
  | full T => exact h
  | done _ => exact h
  | drop _ _ _ _ _ ih => exact ih (h.put (by simp))

theorem Short.step {ev : Event} {a : Option (ResCode × Bytes)} (h : T.Short) (hf : ev.Framed)
    (hs : Step Q T (ev, a) T') : T'.Short := by
  cases hs with
  | @request _ _ cmd _ _ _ _ _ _ hask =>
    refine h.ask ?_ hask
    intro key val hof
    have hreads := Command.reads_of cmd
    rw [hof] at hreads
    have hreads : cmd = [ascii "set", key, val] := hreads
    exact RedisServer.Framed.short hf val (by simp [hreads])
  | timers hexp => exact .expires hexp h

end Table

/-- **A careful history of frames** leaves a server that is able to answer. -/
theorem careful_serving {evs : List Event} (hf : ∀ ev ∈ evs, ev.Framed)
    (hc : AllSteps (serve lim) (fun g ev => ev.Meets (Careful lim) ChargedExpiry g) {} evs)
    (hr : run (serve lim) {} evs = .ok g) : g.Serving ∧ g.asTable.Short := by
  refine run_invariant (I := fun g => g.Serving ∧ g.asTable.Short) ?_ ⟨.empty, nofun⟩
    (hc.and (.of_forall hf)) hr
  intro g ev g' hi hcond h
  obtain ⟨hi', a, -, hstep⟩ := serve_serving (Q := fun _ _ _ => True) hi.1 hcond.1
    (fun _ _ _ _ _ _ _ _ => trivial) h
  exact ⟨hi', hi.2.step hcond.2 hstep⟩

/-! ## What does not return -/

namespace Table

/-- A `zadd` to a key that holds a text. -/
def AddsToText (T : Table) : Command → Prop
  | .zadd key _ _ => (T key).isSome ∧ T.scoresAt key = none
  | _ => False

/-- A `zrem` of a member. -/
def PopsMember (T : Table) : Command → Prop
  | .zrem key name => ((T.scoresAt key).bind fun m => m name).isSome
  | _ => False

instance (T : Table) : (c : Command) → Decidable (T.AddsToText c)
  | .zadd key _ _ => inferInstanceAs (Decidable ((T key).isSome ∧ T.scoresAt key = none))
  | .keys | .get _ | .set _ _ | .del _ | .zscore _ _ | .zrem _ _ | .zquery _ _ _ _ _ | .expire _ _
  | .ttl _ | .usage _ | .unknown => .isFalse id

instance (T : Table) : (c : Command) → Decidable (T.PopsMember c)
  | .zrem key name => inferInstanceAs (Decidable ((T.scoresAt key).bind fun m => m name).isSome)
  | .keys | .get _ | .set _ _ | .del _ | .zadd _ _ _ | .zscore _ _ | .zquery _ _ _ _ _ | .expire _ _
  | .ttl _ | .usage _ | .unknown => .isFalse id

/-- **The table answers** a request in a frame unless it is one of the three. -/
theorem answers_iff {T : Table} {found : Bytes} (hT : T.Short) (hlen : cmd.length ≤ maxArgs) :
    (T.ask now ks found (.of cmd)).isSome ↔
      ¬BadScore cmd ∧ ¬T.AddsToText (.of cmd) ∧ ¬T.PopsMember (.of cmd) := by
  rw [badScore_iff]
  have hquery := of_ne_zquery hlen
  generalize Command.of cmd = c at hquery
  cases c with
  | keys | usage _ | unknown | set _ _ =>
    exact iff_of_true rfl ⟨by simp, id, id⟩
  | get key =>
    refine iff_of_true ?_ ⟨by simp, id, id⟩
    rw [Table.ask]
    cases hk : T key with
    | none => rfl
    | some item =>
      dsimp only
      rw [if_pos (hT key item hk)]
      rfl
  | del key =>
    refine iff_of_true ?_ ⟨by simp, id, id⟩
    rw [Table.ask]
    cases T key <;> rfl
  | zadd key score name =>
    have hiff : (∃ key' s name', Command.zadd key score name = .zadd key' s name' ∧
        stod s = .error .exception) ↔ stod score = .error .exception := by simp
    rw [hiff, Table.ask]
    cases hs : stod score with
    | error f =>
      cases stod_error hs
      exact iff_of_false (by simp [Except.toOption]) fun h => h.1 rfl
    | ok s =>
      have hok : ¬(Except.ok s : Res Dbl) = .error .exception := by simp
      simp only [hok, not_false_eq_true, true_and, AddsToText, PopsMember, and_true,
        Table.scoresAt]
      cases hk : T key with
      | none => simp [Except.toOption]
      | some item =>
        obtain ⟨content, deadline⟩ := item
        cases content <;> simp [Except.toOption]
  | zscore key name =>
    refine iff_of_true ?_ ⟨by simp, id, id⟩
    rw [Table.ask]
    split <;> rfl
  | zrem key name =>
    simp only [reduceCtorEq, false_and, exists_false, not_false_eq_true, true_and, AddsToText,
      PopsMember, Table.ask]
    cases (T.scoresAt key).bind fun m => m name <;> simp
  | zquery key score name offset limit => exact absurd rfl (hquery key score name offset limit)
  | expire key ms =>
    refine iff_of_true ?_ ⟨by simp, id, id⟩
    rw [Table.ask]
    split
    · rfl
    · split <;> rfl
  | ttl key =>
    refine iff_of_true ?_ ⟨by simp, id, id⟩
    rw [Table.ask]
    split
    · rfl
    · split <;> rfl

end Table

/-- What returns on the stacks, the table answers. -/
theorem answers_of_returns (hi : g.Serving)
    (h : Returns (g.asStacks.ask lim now ks (.of cmd))) :
    ∃ found, (g.asTable.ask now ks found (.of cmd)).isSome := by
  obtain ⟨⟨S', code, out⟩, hask⟩ := h
  have hkept : g.asStacks.Kept ZSet.Keyed := fun key slot hslot z hz =>
    (hi.kept key slot hslot z hz).imp id fun ⟨_, hz⟩ => hz.keyed
  have hadds : g.asStacks.Adds (fun _ _ _ => True) (.of cmd) := by
    generalize Command.of cmd = c
    cases c with
    | zadd _ _ _ => exact fun _ _ => trivial
    | _ => trivial
  obtain ⟨hmapped, -⟩ :=
    ask_table (keyed_invariant lim) (hi.unique.flat hi.wf) hkept (.of cmd) hadds hask
  exact ⟨out, by rw [GlobalData.asTable, hmapped]; rfl⟩

theorem countable_of_length (hlen : cmd.length ≤ maxArgs) (S : Stacks) :
    S.Countable lim (.of cmd) ∧ (Command.of cmd).Fits lim := by
  have hquery := of_ne_zquery hlen
  generalize Command.of cmd = c at hquery
  cases c with
  | zquery key score name offset limit => exact absurd rfl (hquery key score name offset limit)
  | _ => exact ⟨trivial, trivial⟩

/-- **A request in a frame returns** unless its score cannot be read, it adds to a text or it removes
a member. -/
theorem doRequest_returns_iff (hi : g.Serving) (hT : g.asTable.Short) (hlen : cmd.length ≤ maxArgs)
    (hlifts : g.asStacks.Adds (ZSet.Lifts lim) (.of cmd)) :
    Returns (doRequest lim now g cmd []) ↔ ¬BadScore cmd ∧ ¬g.asTable.AddsToText (.of cmd) ∧
      ¬g.asTable.PopsMember (.of cmd) := by
  by_cases hset : ∃ key val, Command.of cmd = .set key val
  case pos =>
    obtain ⟨key, val, hof⟩ := hset
    have hreads := Command.reads_of cmd
    rw [hof] at hreads
    have hreads : cmd = [ascii "set", key, val] := hreads
    subst hreads
    exact iff_of_true (doSet_returns ⟨hi.toSound, hi.ttl, hi.exact⟩)
      ((Table.answers_iff hT hlen).mp (rfl : (g.asTable.ask now [] [] (.set key val)).isSome))
  case neg =>
    -- a request other than `set` moves no copy of a key past another one
    have hfresh : SetsNewKey g cmd := by
      intro key hkey
      refine absurd ?_ hset
      unfold setKey at hkey
      split at hkey
      · split at hkey
        · rename_i hc
          subst hc
          exact ⟨_, _, rfl⟩
        · cases hkey
      · cases hkey
    have horder : Orderly g (.request now cmd) := orderly_of_unique hi.wf hi.unique hfresh
    constructor
    · rintro ⟨⟨g', code, out⟩, h⟩
      obtain ⟨ks, -, hask⟩ := mirrors_request hi.toSound cmd g' code out h horder
      obtain ⟨found, hans⟩ := answers_of_returns hi ⟨_, hask⟩
      exact (Table.answers_iff hT hlen).mp hans
    · intro h
      have hans : (g.asTable.ask now [] [] (.of cmd)).isSome := (Table.answers_iff hT hlen).mpr h
      obtain ⟨hcount, hfits⟩ := countable_of_length hlen g.asStacks
      exact request_returns ⟨hi.toSound, hi.ttl, hi.exact⟩ cmd horder
        (ask_returns hi.kept hlifts hcount hfits hans)

/-- A member has to be lifted without a rotation below the root. Here `avl_del` rotates there, and
leaves the root's link on the node that it takes out: `tree_add` comes to this node and hangs it below
itself, and `avl_fix` goes round for ever. -/
example : (match run (serve ⟨64, 0⟩) {} [ask 0 ["zadd", "z", "50", "p"],
    ask 1 ["zadd", "z", "20", "n"], ask 2 ["zadd", "z", "70", "q"], ask 3 ["zadd", "z", "10", "c"],
    ask 4 ["zadd", "z", "30", "v"], ask 5 ["zadd", "z", "80", "r"], ask 6 ["zadd", "z", "5", "b"],
    ask 7 ["zadd", "z", "15", "n"]] with
    | .ok _ => false | .error f => decide (f = .outOfFuel)) = true := by decide +kernel

/-! ## One frame -/

section Io

variable {σ : Type}

end Io

/-- A text and two members. -/
def stocked : List Event :=
  [ask 0 ["set", "k", "v"], ask 1 ["zadd", "z", "1", "m"], ask 2 ["zadd", "z", "2", "n"]]

def stockedData : GlobalData := (run (serve ⟨64, 0⟩) {} stocked).toOption.getD {}

theorem stocked_framed : ∀ ev ∈ stocked, ev.Framed := by
  simp only [stocked, List.forall_mem_cons, List.not_mem_nil, IsEmpty.forall_iff, implies_true,
    and_true]
  exact ⟨⟨frame ["set", "k", "v"], 25, by decide +kernel⟩,
    ⟨frame ["zadd", "z", "1", "m"], 31, by decide +kernel⟩,
    ⟨frame ["zadd", "z", "2", "n"], 31, by decide +kernel⟩⟩

theorem stocked_run : run (serve ⟨64, 0⟩) {} stocked = .ok stockedData :=
  ok_getD (by decide +kernel)

/-- **Which frames are answered.** A request that `do_request` returns from is answered exactly if it
is `Answerable`, with `answerOf out` in one frame, and the connection goes on; else the connection is
closed. After a careful history of frames it is known from the data whether there is an answer: the
request is `Answerable`, and is none of the three that do not return. -/
theorem oneRequest_answers_iff (lim : Limits) :
    (∀ (conn : Conn) (net : Net Host) (cmd : List Bytes) (k : Nat) (host' : Host) (code : ResCode)
      (out : Bytes), nextRequest conn.rbuf = some (cmd, k) →
      Host.serve lim net.db cmd = .ok (host', code, out) →
      (oneRequest (Host.serve lim) conn net =
          respond conn (net.record host' ⟨cmd, some (code, out)⟩) out k ↔
        Answerable net.db.data cmd) ∧
      (¬Answerable net.db.data cmd → oneRequest (Host.serve lim) conn net =
        .ok (conn.closed, net.record host' ⟨cmd, some (code, out)⟩, false))) ∧
    ∀ (evs : List Event) (g : GlobalData), (∀ ev ∈ evs, ev.Framed) →
      AllSteps (serve lim) (fun g ev => ev.Meets (Careful lim) ChargedExpiry g) {} evs →
      run (serve lim) {} evs = .ok g →
      ∀ (conn : Conn) (net : Net Host) (cmd : List Bytes) (k : Nat), net.db.data = g →
        nextRequest conn.rbuf = some (cmd, k) → g.asStacks.Adds (ZSet.Lifts lim) (.of cmd) →
        ((∃ host' code out, Host.serve lim net.db cmd = .ok (host', code, out) ∧
            oneRequest (Host.serve lim) conn net =
              respond conn (net.record host' ⟨cmd, some (code, out)⟩) out k) ↔
          Answerable g cmd ∧ ¬BadScore cmd ∧ ¬g.asTable.AddsToText (.of cmd) ∧
            ¬g.asTable.PopsMember (.of cmd)) := by
  refine ⟨fun _ _ _ _ _ _ _ hn hs => oneRequest_responds_iff hn hs, ?_⟩
  rintro evs g hf hc hr conn net cmd k rfl hn hlifts
  obtain ⟨hi, hT⟩ := careful_serving hf hc hr
  have hret : Returns (doRequest lim (net.db.clock.headD 0) net.db.data cmd []) ↔ _ :=
    doRequest_returns_iff hi hT (nextRequest_length hn) hlifts
  rw [← hret]
  constructor
  · rintro ⟨host', code, out, hs, hone⟩
    obtain ⟨r, hreq, -⟩ := bind_ok.mp hs
    exact ⟨(oneRequest_responds_iff hn hs).1.mp hone, r, hreq⟩
  · rintro ⟨ha, ⟨g', code, out⟩, hreq⟩
    have hs : Host.serve lim net.db cmd = .ok (⟨g', net.db.clock.tail⟩, code, out) := by
      unfold Host.serve
      rw [hreq]
      rfl
    exact ⟨_, code, out, hs, (oneRequest_responds_iff hn hs).1.mpr ha⟩

/-- A name that is no member is removed from a set with two members. -/
theorem oneRequest_answers_missing : ∃ host' code out,
    Host.serve ⟨64, 0⟩ { data := stockedData } [ascii "zrem", ascii "z", ascii "o"] =
        .ok (host', code, out) ∧
      oneRequest (Host.serve ⟨64, 0⟩) { rbuf := frame ["zrem", "z", "o"] }
          { db := { data := stockedData } } =
        respond { rbuf := frame ["zrem", "z", "o"] }
          (Net.record { db := { data := stockedData } } host'
            ⟨[ascii "zrem", ascii "z", ascii "o"], some (code, out)⟩) out 26 :=
  ((oneRequest_answers_iff ⟨64, 0⟩).2 stocked stockedData stocked_framed (by decide +kernel)
    stocked_run { rbuf := frame ["zrem", "z", "o"] } { db := { data := stockedData } }
    [ascii "zrem", ascii "z", ascii "o"] 26 rfl (by decide +kernel) trivial).mpr
    ⟨.inr (.inl rfl), id, id, by decide +kernel⟩

/-- A `get` of a missing key is executed, its output is dropped and the connection closed. -/
theorem get_missing_is_not_answered :
    (connRun (Host.serve ⟨64, 0⟩) {} { db := {}, inbox := frame ["get", "k"] }
      [⟨{}, [.count 4096], [.count 4096]⟩]).toOption.map
        (fun r => (r.1.state, r.2.sent, r.2.calls)) =
      some (.STATE_END, [],
        [⟨[ascii "get", ascii "k"], some (.RES_NX, outInt [] (ResCode.RES_NX.toNat))⟩]) := by
  decide +kernel

end RedisServer
