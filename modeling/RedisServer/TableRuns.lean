import RedisServer.StackRuns
import RedisServer.TableRefinement

/-!
# The server as a table of texts and score maps

Over every history that sets no stored key, the keyspace is a `Table`.

* `history_refines_table` — every answer is that of the table, apart from the members that range
  queries list;
* `history_answers_ranges` — if the additions are calm, range queries too are answered from the
  table.
-/

set_option autoImplicit false

namespace RedisServer

open Runs Traces GlobalData

variable {lim : Limits} {C : ZSet → Bytes → Dbl → Prop} {P : ZSet → Prop} {g g' : GlobalData}
  {Q : Table → Command → Bytes → Prop}

def GlobalData.asTable (g : GlobalData) : Table := g.asStacks.asTable

/-- What the second refinement rests on: one slot a key, whose sorted set satisfies `P`. -/
structure GlobalData.Tabular (P : ZSet → Prop) (g : GlobalData) : Prop extends g.Sound where
  unique : g.UniqueKeys
  kept : g.asStacks.Kept P

theorem GlobalData.Tabular.empty : GlobalData.Tabular P {} where
  toSound := .empty
  unique p q e e' he := nomatch he
  kept key slot hslot := by cases hslot

/-- **A step** refines a step on the table, with the same answer. -/
theorem serve_table {ev : Event} (hP : SetInvariant lim C P) (hi : g.Tabular P)
    (hset : ev.Meets SetsNewKey (fun _ => True) g)
    (hadds : ∀ now cmd, ev = .request now cmd → g.asStacks.Adds C (.of cmd))
    (hQ : ∀ now cmd ks S' code out, ev = .request now cmd →
      g.asStacks.ask lim now ks (.of cmd) = .ok (S', code, out) → Q g.asTable (.of cmd) out)
    (h : serve lim g ev = .ok g') :
    g'.Tabular P ∧ ∃ a, Replies lim g (ev, a) g' ∧ Table.Step Q g.asTable (ev, a) g'.asTable := by
  have hflat := hi.unique.flat hi.wf
  obtain ⟨hi', a, hreplies, hstep⟩ :=
    serve_stacks hi.toSound (orderly_of_unique hi.wf hi.unique hset) h
  have hu' := (serve_unique ⟨hi.wf, hi.unique⟩ hset h).2
  cases hstep with
  | @request _ now cmd ks code out hks hask =>
    obtain ⟨hmapped, hkept⟩ :=
      ask_table hP hflat hi.kept (.of cmd) (hadds now cmd rfl) hask
    exact ⟨⟨hi', hu', hkept⟩, _, hreplies,
      .request (hflat.lists hks) (hQ now cmd ks _ code out rfl hask) hmapped⟩
  | timers hexp =>
    obtain ⟨hexp, hkept⟩ := expires_table hexp hflat hi.kept
    exact ⟨⟨hi', hu', hkept⟩, _, hreplies, .timers hexp⟩

/-- **The keyspace is a table.**  As long as no stored key is `set`, every answer is that of a table
of texts and score maps: `zadd` and `zscore` set and read the score of a name, `zrem` answers for
missing names only, whatever the rotations of the trees have done. -/
theorem history_refines_table (lim : Limits) (evs : List Event) (g : GlobalData)
    (hset : AllSteps (serve lim) (fun g ev => ev.Meets SetsNewKey (fun _ => True) g) {} evs)
    (hrun : run (serve lim) {} evs = .ok g) :
    ∃ log, log.map Prod.fst = evs ∧ Trace (Replies lim) {} log g ∧
      Trace (Table.Step fun _ _ _ => True) Table.empty log g.asTable := by
  refine traced (I := fun g => g.Tabular ZSet.Keyed) asTable ?_ .empty hset hrun
  intro g ev g' hi hset h
  refine serve_table (keyed_invariant lim) hi hset ?_ (fun _ _ _ _ _ _ _ _ => trivial) h
  intro now cmd _
  generalize Command.of cmd = cmd
  cases cmd with
  | zadd key score name => exact fun _ _ => trivial
  | _ => trivial

/-- Five ascending members: the fifth cuts two of them off the tree, and their scores are still
answered. -/
def ascending : List Event :=
  [ask 0 ["zadd", "z", "1", "a"], ask 1 ["zadd", "z", "2", "b"], ask 2 ["zadd", "z", "3", "c"],
    ask 3 ["zadd", "z", "4", "d"], ask 4 ["zadd", "z", "5", "e"], ask 5 ["zscore", "z", "a"],
    ask 6 ["zscore", "z", "d"], ask 7 ["zrem", "z", "f"]]

theorem history_refines_table_ascending : ∃ g log, run (serve ⟨64, 0⟩) {} ascending = .ok g ∧
    log.map Prod.fst = ascending ∧
      Trace (Table.Step fun _ _ _ => True) Table.empty log g.asTable := by
  obtain ⟨g, hg⟩ := ok_of_isSome (x := run (serve ⟨64, 0⟩) {} ascending) (by decide +kernel)
  obtain ⟨log, hlog, -, htrace⟩ :=
    history_refines_table ⟨64, 0⟩ ascending g (by decide +kernel) hg
  exact ⟨g, log, hg, hlog, htrace⟩

/-! ## Range queries -/

/-- The request adds calmly, and queries a set that can be counted. -/
def CalmRequest (lim : Limits) (g : GlobalData) (cmd : List Bytes) : Prop :=
  g.asStacks.Adds (ZSet.Calm lim) (.of cmd) ∧ g.asStacks.Countable lim (.of cmd)

instance (lim : Limits) (S : Stacks) : (cmd : Command) → Decidable (S.Adds (ZSet.Calm lim) cmd)
  | .zadd key score name =>
    match h : stod score with
    | .ok s => decidable_of_iff (ZSet.Calm lim ((S.setAt key).getD {}) name s)
        ⟨fun hc _ hs => by cases h.symm.trans hs; exact hc, fun hc => hc s h⟩
    | .error _ => .isTrue fun _ hs => by cases h.symm.trans hs
  | .keys | .get _ | .set _ _ | .del _ | .zscore _ _ | .zrem _ _ | .zquery _ _ _ _ _ | .expire _ _
  | .ttl _ | .usage _ | .unknown => .isTrue trivial

instance (lim : Limits) (S : Stacks) : (cmd : Command) → Decidable (S.Countable lim cmd)
  | .zquery key _ _ _ _ => inferInstanceAs (Decidable (∀ z ∈ S.setAt key, _))
  | .keys | .get _ | .set _ _ | .del _ | .zadd _ _ _ | .zscore _ _ | .zrem _ _ | .expire _ _
  | .ttl _ | .usage _ | .unknown => .isTrue trivial

instance (lim : Limits) (g : GlobalData) (cmd : List Bytes) : Decidable (CalmRequest lim g cmd) :=
  inferInstanceAs (Decidable (_ ∧ _))

/-- **Range queries too** are answered from the table, as long as the additions are calm: each lists
the window of its score map in increasing order. -/
theorem history_answers_ranges (lim : Limits) (evs : List Event) (g : GlobalData)
    (hcond : AllSteps (serve lim)
      (fun g ev => ev.Meets (fun g cmd => SetsNewKey g cmd ∧ CalmRequest lim g cmd)
        (fun _ => True) g) {} evs)
    (hrun : run (serve lim) {} evs = .ok g) :
    ∃ log, log.map Prod.fst = evs ∧ Trace (Replies lim) {} log g ∧
      Trace (Table.Step Table.Finds) Table.empty log g.asTable := by
  refine traced (I := fun g => g.Tabular fun zset => ∃ t, zset.Sound t) asTable ?_ .empty hcond hrun
  intro g ev g' hi hcond h
  have hset : ev.Meets SetsNewKey (fun _ => True) g :=
    hcond.mono (fun _ _ hc => hc.1) fun _ _ => trivial
  refine serve_table (sound_invariant lim) hi hset ?_ ?_ h
  · rintro now cmd rfl
    exact hcond.2.1
  · rintro now cmd ks S' code out rfl hask
    exact ask_finds hi.kept hcond.2.2 hask

/-- A member is moved past another one, then both are listed. -/
def ranged : List Event :=
  [ask 0 ["zadd", "z", "1", "a"], ask 1 ["zadd", "z", "2", "b"], ask 2 ["zadd", "z", "3", "a"],
    ask 3 ["zquery", "z", "0", "", "0", "7"], ask 4 ["zquery", "z", "2.5", "", "-1", "1"]]

theorem history_answers_ranges_moved : ∃ g log, run (serve ⟨64, 0⟩) {} ranged = .ok g ∧
    log.map Prod.fst = ranged ∧ Trace (Table.Step Table.Finds) Table.empty log g.asTable := by
  obtain ⟨g, hg⟩ := ok_of_isSome (x := run (serve ⟨64, 0⟩) {} ranged) (by decide +kernel)
  obtain ⟨log, hlog, -, htrace⟩ := history_answers_ranges ⟨64, 0⟩ ranged g (by decide +kernel) hg
  exact ⟨g, log, hg, hlog, htrace⟩

end RedisServer
