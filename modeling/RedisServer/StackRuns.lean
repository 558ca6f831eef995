import RedisServer.StackRefinement
import RedisServer.UniqueKeys
import RedisServer.RunningServer

/-!
# The server as a map of stacks

Results:
* `history_refines_stacks` — over every history from the empty database in which no migration
  moves a copy of a key past another one, the answers are those of a map of stacks;
* `history_refines_map` — if no stored key is `set` again, there is at most one slot under each
  key, and no condition on migrations is needed;
* `World.clients_share_stacks` — all clients of the running server talk to one map of stacks, in
  the order of the record.
-/

set_option autoImplicit false

namespace RedisServer

open Runs Traces Deframe GlobalData

variable {lim : Limits} {g g' : GlobalData} {key : Bytes} {now : UInt64}

/-- A step of the data with its answer. -/
inductive Replies (lim : Limits) (g : GlobalData) :
    Event × Option (ResCode × Bytes) → GlobalData → Prop where
  | request {g' : GlobalData} {now : UInt64} {cmd : List Bytes} {code : ResCode} {out : Bytes} :
      doRequest lim now g cmd [] = .ok (g', code, out) →
      Replies lim g (.request now cmd, some (code, out)) g'
  | timers {g' : GlobalData} {now : UInt64} :
      processTimers g now = .ok g' → Replies lim g (.timers now, none) g'

theorem Replies.serve {ev : Event} {a : Option (ResCode × Bytes)}
    (h : Replies lim g (ev, a) g') : serve lim g ev = .ok g' := by
  cases h with
  | request hreq => exact serve_request.mpr ⟨_, _, hreq⟩
  | timers ht => exact ht

/-- An event has one answer. -/
theorem Replies.unique {g'' : GlobalData} {ev : Event} {a a' : Option (ResCode × Bytes)}
    (h : Replies lim g (ev, a) g') (h' : Replies lim g (ev, a') g'') : a = a' := by
  cases h with
  | request hreq =>
    cases h' with
    | request hreq' =>
      cases hreq.symm.trans hreq'
      rfl
  | timers _ =>
    cases h' with
    | timers _ => rfl

/-! ## Orderly steps -/

instance (m : HMap) (E : Store Entry) : Decidable (∀ k, m.KeepsOrder E k) :=
  decidable_of_iff
    (∀ n ∈ m.ht2.nodes.take resizingWork, ∀ e ∈ E n.ptr, m.KeepsOrder E e.key) <| by
    constructor
    · intro h k n hn hk
      obtain ⟨e, he, rfl⟩ := hasKey_iff.mp hk
      exact h n hn e he n hn hk
    · exact fun h _ _ e _ => h e.key

instance (E : Store Entry) : (r : Res HMap) → Decidable (∀ k, NextKeepsOrder E k r)
  | .ok m => inferInstanceAs (Decidable (∀ k, m.KeepsOrder E k))
  | .error _ => .isTrue fun _ => trivial

instance (g : GlobalData) (key : Bytes) : Decidable (∀ k, g.LinkKeepsOrder key k) :=
  inferInstanceAs (Decidable (∀ k, NextKeepsOrder _ k _))

instance (key : Bytes) :
    (r : Res (GlobalData × Option Ptr)) → Decidable (∀ k, AddKeepsOrder key k r)
  | .ok (g, none) => inferInstanceAs (Decidable (∀ k, g.LinkKeepsOrder key k))
  | .ok (_, some _) => .isTrue fun _ => trivial
  | .error _ => .isTrue fun _ => trivial

instance (g : GlobalData) (cmd : List Bytes) : Decidable (∀ k, OrderlyRequest k g cmd) :=
  decidable_of_iff (((looksUp cmd).isSome → ∀ k, g.db.KeepsOrder g.entries k) ∧
      (∀ key ∈ setKey cmd, ∀ k, g.LinkKeepsOrder key k) ∧
      ∀ key ∈ zaddKey cmd, ∀ k, AddKeepsOrder key k (lookupEntry g key))
    ⟨fun h k => ⟨fun hl => h.1 hl k, fun key hkey => h.2.1 key hkey k,
      fun key hkey => h.2.2 key hkey k⟩,
     fun h => ⟨fun hl k => (h k).help hl, fun key hkey k => (h k).set key hkey,
      fun key hkey k => (h k).zadd key hkey⟩⟩

instance (g : GlobalData) : Decidable (∀ k, OrderlyExpiry k g) :=
  inferInstanceAs (Decidable (∀ k, HMap.KeepsOrder _ _ k))

/-- No migration of the step moves a copy of a key past another one. -/
def Orderly (g : GlobalData) (ev : Event) : Prop :=
  ev.Meets (fun g cmd => ∀ k, OrderlyRequest k g cmd) (fun g => ∀ k, OrderlyExpiry k g) g

instance (g : GlobalData) (ev : Event) : Decidable (Orderly g ev) :=
  inferInstanceAs (Decidable (Event.Meets _ _ _ _))

/-- **A step** refines a step on the stacks, with the same answer. -/
theorem serve_stacks {ev : Event} (hi : g.Sound) (ho : Orderly g ev)
    (h : serve lim g ev = .ok g') :
    g'.Sound ∧ ∃ a, Replies lim g (ev, a) g' ∧ Stacks.Step lim g.asStacks (ev, a) g'.asStacks := by
  refine ⟨serve_sound g ev g' hi h, ?_⟩
  cases ev with
  | request now cmd =>
    obtain ⟨code, out, hreq⟩ := serve_request.mp h
    obtain ⟨ks, hks, hask⟩ := mirrors_request hi cmd g' code out hreq ho
    exact ⟨_, .request hreq, .request hks hask⟩
  | timers now =>
    obtain ⟨F, b⟩ := hi.backfill
    exact ⟨none, .timers h, .timers (expireLoop_stacks hi.wf b ho h)⟩

/-- **The keyspace is a map of stacks.**  Let no migration of a history move a copy of a key past
another one.  Then the answers of the history are those of a map of stacks that starts empty, and
the stacks reached are those of the data. -/
theorem history_refines_stacks (lim : Limits) (evs : List Event) (g : GlobalData)
    (horder : AllSteps (serve lim) Orderly {} evs) (hrun : run (serve lim) {} evs = .ok g) :
    ∃ log, log.map Prod.fst = evs ∧ Trace (Replies lim) {} log g ∧
      Trace (Stacks.Step lim) Stacks.empty log g.asStacks :=
  traced asStacks (fun _ _ _ hi ho h => serve_stacks hi ho h) .empty horder hrun

/-- A key is set twice; the newer entry is deleted, the older one expires. -/
def shadowed : List Event :=
  [ask 0 ["set", "k", "a"], ask 1 ["expire", "k", "5"], ask 2 ["zadd", "z", "1.5", "m"],
    ask 3 ["set", "k", "b"], ask 4 ["get", "k"], ask 5 ["del", "k"], ask 6 ["get", "k"],
    .timers 8000, ask 8001 ["keys"]]

theorem history_refines_stacks_shadowed : ∃ g log, run (serve ⟨64, 0⟩) {} shadowed = .ok g ∧
    log.map Prod.fst = shadowed ∧ Trace (Stacks.Step ⟨64, 0⟩) Stacks.empty log g.asStacks := by
  obtain ⟨g, hg⟩ := ok_of_isSome (x := run (serve ⟨64, 0⟩) {} shadowed) (by decide +kernel)
  obtain ⟨log, hlog, -, htrace⟩ :=
    history_refines_stacks ⟨64, 0⟩ shadowed g (by decide +kernel) hg
  exact ⟨g, log, hg, hlog, htrace⟩

/-! ## Without shadowing -/

theorem same_copy (w : g.Wf) (hu : g.UniqueKeys) {n n' : HNode} (hn : n ∈ g.db.order)
    (hn' : n' ∈ g.db.order) (hk : hasKey g.entries key n) (hk' : hasKey g.entries key n') :
    n = n' := by
  obtain ⟨e, he, hkey⟩ := hasKey_iff.mp hk
  obtain ⟨e', he', hkey'⟩ := hasKey_iff.mp hk'
  exact List.inj_on_of_nodup_map w.shape.nodup hn hn' (hu _ _ e e' he he' (hkey.trans hkey'.symm))

theorem GlobalData.UniqueKeys.flat (w : g.Wf) (hu : g.UniqueKeys) : g.asStacks.Flat := by
  intro key
  rw [w.stacks_length]
  have hnd := w.shape.nodup_order.filter (hasKey g.entries key)
  match hc : g.copies key with
  | [] | [_] => simp
  | n :: n' :: rest =>
    have hmem : ∀ x ∈ n :: n' :: rest, x ∈ g.db.order ∧ hasKey g.entries key x := fun x hx =>
      List.mem_filter.mp (hc ▸ hx : x ∈ g.copies key)
    obtain ⟨hn, hk⟩ := hmem n List.mem_cons_self
    obtain ⟨hn', hk'⟩ := hmem n' (List.mem_cons_of_mem _ List.mem_cons_self)
    have hnd : (n :: n' :: rest).Nodup := hc ▸ hnd
    rw [same_copy w hu hn hn' hk hk'] at hnd
    simp at hnd

/-- A migration cannot pass the only copy of a key past another one. -/
theorem GlobalData.UniqueKeys.keepsOrder (w : g.Wf) (hu : g.UniqueKeys) (k : Bytes) :
    g.db.KeepsOrder g.entries k := by
  have htake : ∀ n ∈ g.db.ht2.nodes.take resizingWork, n ∈ g.db.order := fun n hn =>
    List.mem_append_right _ (List.mem_of_mem_take hn)
  intro n hn hk n' hn' hk'
  refine same_copy w hu (htake n hn) ?_ hk hk'
  rcases List.mem_append.mp hn' with hn' | hn'
  · exact List.mem_append_left _ hn'
  · exact htake n' hn'

theorem GlobalData.UniqueKeys.linkKeepsOrder (w : g.Wf) (hu : g.UniqueKeys) (hl : g.Lacks key)
    (k : Bytes) : g.LinkKeepsOrder key k := by
  obtain ⟨m, hlink, hm⟩ := hmLink_spec w.shape (n := ⟨g.next, strHash key⟩) w.unlinked
  unfold GlobalData.LinkKeepsOrder
  rw [hlink]
  have wl : (linkedState g m (newEntry g key [] 0 none)).Wf := w.create rfl hm.shape hm.perm
  refine GlobalData.UniqueKeys.keepsOrder wl ?_ k
  intro p q e e' he he' hkey
  have hcase : ∀ {p : Ptr} {e : Entry},
      g.entries.write g.next (newEntry g key [] 0 none) p = some e →
      p = g.next ∧ e.key = key ∨ g.entries p = some e ∧ e.key ≠ key := by
    intro p e he
    by_cases hp : p = g.next
    · rw [hp, Store.write_self] at he
      cases he
      exact .inl ⟨hp, rfl⟩
    · rw [Store.write_of_ne _ _ hp] at he
      exact .inr ⟨he, hl p e he⟩
  rcases hcase he with ⟨hp, hk⟩ | ⟨hp, hk⟩ <;> rcases hcase he' with ⟨hq, hk'⟩ | ⟨hq, hk'⟩
  · rw [hp, hq]
  · exact absurd (hkey.symm.trans hk) hk'
  · exact absurd (hkey.trans hk') hk
  · exact hu p q e e' hp hq hkey

/-- With unique keys every step is orderly that sets no stored key. -/
theorem orderly_of_unique {ev : Event} (w : g.Wf) (hu : g.UniqueKeys)
    (hset : ev.Meets SetsNewKey (fun _ => True) g) : Orderly g ev := by
  cases ev with
  | request now cmd =>
    intro k
    refine ⟨fun _ => hu.keepsOrder w k, ?_, ?_⟩
    · exact fun key hkey => hu.linkKeepsOrder w (w.lacks_iff.mpr (hset key hkey)) k
    · intro key _
      cases hl : lookupEntry g key with
      | error f => trivial
      | ok r =>
        obtain ⟨g₁, found⟩ := r
        have hlooked := lookupEntry_spec w hl
        cases found with
        | some p => trivial
        | none =>
          have hu₁ : g₁.UniqueKeys := by rw [hlooked.data]; exact hu
          exact hu₁.linkKeepsOrder hlooked.wf hlooked.lacks k
  | timers now =>
    refine eachExpiry_of (I := fun g => g.Wf ∧ g.UniqueKeys)
      (fun g hi k => hi.2.keepsOrder hi.1 k) ?_ ⟨w, hu⟩
    intro g g' hi h
    have hc := expireTop_change hi.1 h
    exact ⟨hc.wf hi.1, hc.unique (fun _ hk => by cases hk) hi.2⟩

/-- **The keyspace is a map** as long as no stored key is `set`: the answers of the history are
those of a map of stacks none of which ever has more than one slot. -/
theorem history_refines_map (lim : Limits) (evs : List Event) (g : GlobalData)
    (hset : AllSteps (serve lim) (fun g ev => ev.Meets SetsNewKey (fun _ => True) g) {} evs)
    (hrun : run (serve lim) {} evs = .ok g) :
    ∃ log, log.map Prod.fst = evs ∧ Trace (Replies lim) {} log g ∧
      Trace (fun S a S' => Stacks.Step lim S a S' ∧ S'.Flat) Stacks.empty log g.asStacks := by
  refine traced (I := fun g => g.Sound ∧ g.UniqueKeys) asStacks ?_
    ⟨.empty, fun p q e e' he => by cases he⟩ hset hrun
  rintro g ev g' ⟨hi, hu⟩ hset h
  obtain ⟨hi', a, hreplies, hstep⟩ := serve_stacks hi (orderly_of_unique hi.wf hu hset) h
  have hu' := (serve_unique ⟨hi.wf, hu⟩ hset h).2
  exact ⟨⟨hi', hu'⟩, a, hreplies, hstep, hu'.flat hi'.wf⟩

/-- A key is set, expires and is set again, past a resize. -/
def reused : List Event :=
  [ask 0 ["set", "k", "a"], ask 1 ["expire", "k", "5"], .timers 8000, ask 8001 ["set", "k", "b"],
    ask 8002 ["zadd", "z", "1.5", "m"], ask 8003 ["zscore", "z", "m"], ask 8004 ["del", "k"],
    ask 8005 ["get", "k"], ask 8006 ["keys"]]

theorem history_refines_map_reused : ∃ g log, run (serve ⟨64, 0⟩) {} reused = .ok g ∧
    log.map Prod.fst = reused ∧
      Trace (fun S a S' => Stacks.Step ⟨64, 0⟩ S a S' ∧ S'.Flat) Stacks.empty log g.asStacks := by
  obtain ⟨g, hg⟩ := ok_of_isSome (x := run (serve ⟨64, 0⟩) {} reused) (by decide +kernel)
  obtain ⟨log, hlog, -, htrace⟩ := history_refines_map ⟨64, 0⟩ reused g (by decide +kernel) hg
  exact ⟨g, log, hg, hlog, htrace⟩

/-! ## The running server -/

namespace World

/-- The event that an entry of the record is for the data. -/
def eventOf (host : Host) : Record → Event
  | .served _ call => .request (host.clock.headD 0) call.cmd
  | .expired now => .timers now

/-- An entry of the record, and a step with the same answer. -/
inductive Logged : Record → Event × Option (ResCode × Bytes) → Prop
  | served (p : Ptr) (call : Call) (now : UInt64) :
      Logged (.served p call) (.request now call.cmd, call.answer)
  | expired (now : UInt64) : Logged (.expired now) (.timers now, none)

/-- An entry of the record, executed on its own, is a step of the data with its answer. -/
theorem replies_of_redo {host host' : Host} {r : Record}
    (h : redo (Host.serve lim) Host.expire host r = .ok host') :
    ∃ a, Logged r (eventOf host r, a) ∧ Replies lim host.data (eventOf host r, a) host'.data := by
  cases r with
  | served p call =>
    obtain ⟨⟨host₁, code, out⟩, hserve, h⟩ := bind_ok.mp h
    obtain ⟨_, hanswer, h⟩ := bind_ok.mp h
    cases h
    rw [assert_ok, decide_eq_true_eq] at hanswer
    obtain ⟨⟨g, code', out'⟩, hreq, hserve⟩ := bind_ok.mp hserve
    cases hserve
    exact ⟨_, hanswer ▸ .served p call _, .request hreq⟩
  | expired now =>
    obtain ⟨g, hg, h⟩ := bind_ok.mp h
    cases h
    exact ⟨_, .expired now, .timers hg⟩

/-- A record as a trace of whatever the data refines. -/
theorem history_logged {τ : Type} {I : GlobalData → Prop} {C : GlobalData → Event → Prop}
    {lts : τ → Event × Option (ResCode × Bytes) → τ → Prop} (f : GlobalData → τ)
    (hstep : ∀ g ev g', I g → C g ev → serve lim g ev = .ok g' →
      I g' ∧ ∃ a, Replies lim g (ev, a) g' ∧ lts (f g) (ev, a) (f g')) :
    ∀ {history : List Record} {host host' : Host}, I host.data →
      AllSteps (redo (Host.serve lim) Host.expire) (fun host r => C host.data (eventOf host r)) host
        history →
      run (redo (Host.serve lim) Host.expire) host history = .ok host' →
      ∃ log, List.Forall₂ Logged history log ∧ Trace lts (f host.data) log (f host'.data)
  | [], _, _, _, _, h => by
    cases h
    exact ⟨[], .nil, .nil _⟩
  | r :: history, host, host', hi, ho, h => by
    obtain ⟨host₁, hr, h⟩ := run_cons_ok.mp h
    obtain ⟨hor, hos⟩ := allSteps_cons.mp ho
    obtain ⟨a, hlogged, hreplies⟩ := replies_of_redo hr
    obtain ⟨hi₁, a', hreplies', hlts⟩ := hstep _ _ _ hi hor hreplies.serve
    cases hreplies.unique hreplies'
    obtain ⟨log, hlog, htrace⟩ := history_logged f hstep hi₁ (hos host₁ hr) h
    exact ⟨_ :: log, .cons hlogged hlog, .cons hlts htrace⟩

/-- **All clients talk to one map of stacks.**  However the connections of the running server are
interleaved and their bytes cut: the requests it has executed, in the order of the record, are a
trace of one map of stacks, and each client has received a prefix of the answers to its own. -/
theorem clients_share_stacks (lim : Limits) (clock : List UInt64) (events : List WorldEvent)
    (w : World Host)
    (hadm : AllSteps (step (Host.serve lim) Host.expire) Admits (start { clock := clock }) events)
    (hrun : run (step (Host.serve lim) Host.expire) (start { clock := clock }) events = .ok w)
    (horder : AllSteps (redo (Host.serve lim) Host.expire)
      (fun host r => Orderly host.data (eventOf host r)) { clock := clock } w.history) :
    ∃ log, List.Forall₂ Logged w.history log ∧
      Trace (Stacks.Step lim) Stacks.empty log w.server.data.data.asStacks ∧
      ∀ p, (w.callsOf p).map Call.cmd <+: requestFraming.items (w.peers p).stream ∧
        (w.peers p).received <+: responses (w.callsOf p) := by
  have h := run_accounted hadm
  rw [hrun] at h
  have hsound : ({ clock := clock } : Host).data.Sound := .empty
  obtain ⟨log, hlog, htrace⟩ :=
    history_logged asStacks (fun _ _ _ hi ho h => serve_stacks hi ho h) hsound horder h.redone
  refine ⟨log, hlog, htrace, ?_⟩
  intro p
  have hobs := Consistent.observed h p
  exact ⟨hobs.calls, hobs.sent⟩

/-- The client of `set` and the client of `keys` have received their answers. -/
theorem clients_share_stacks_two : ∃ w log,
    run (step (Host.serve ⟨64, 0⟩) Host.expire) (start {}) twoClients = .ok w ∧
      List.Forall₂ Logged w.history log ∧
      Trace (Stacks.Step ⟨64, 0⟩) Stacks.empty log w.server.data.data.asStacks ∧
      (∀ p, (w.peers p).received <+: responses (w.callsOf p)) ∧
      (w.peers 0).received = [9, 0, 0, 0, 3, 0, 0, 0, 0, 0, 0, 0, 0] ∧
      (w.peers 1).received = [5, 0, 0, 0, 4, 0, 0, 0, 0] := by
  have hfacts : (run (step (Host.serve ⟨64, 0⟩) Host.expire) (start {}) twoClients).toOption.map
      (fun w => (decide (AllSteps (redo (Host.serve ⟨64, 0⟩) Host.expire)
        (fun host r => Orderly host.data (eventOf host r)) {} w.history),
        (w.peers 0).received, (w.peers 1).received)) =
      some (true, [9, 0, 0, 0, 3, 0, 0, 0, 0, 0, 0, 0, 0], [5, 0, 0, 0, 4, 0, 0, 0, 0]) := by
    decide +kernel
  obtain ⟨w, hw, hfacts⟩ := ok_of_map hfacts
  simp only [Prod.mk.injEq] at hfacts
  obtain ⟨horder, hset, hkeys⟩ := hfacts
  obtain ⟨log, hlog, htrace, hclients⟩ := clients_share_stacks ⟨64, 0⟩ [] twoClients w
    (by decide +kernel) hw (of_decide_eq_true horder)
  exact ⟨w, log, hw, hlog, htrace, fun p => (hclients p).2, hset, hkeys⟩

end World

end RedisServer
