import RedisServer.LastWrite
import RedisServer.Responses

/-!
# Unique keys, and what a deletion leaves

`do_zadd` looks its key up before it links an entry, `do_set` does not.  So the keys stay unique as
long as no stored key is `set` (`Effect.unique`), and then a `del` that answers 1 leaves no entry
with its key (`del_erases`).  A key that was set twice survives its first `del`
(`del_uncovers_older_entry`).
-/

set_option autoImplicit false

namespace RedisServer

open Runs GlobalData

variable {g g' : GlobalData} {key k : Bytes} {now : UInt64} {lim : Limits}

/-- No two entries have the same key. -/
def GlobalData.UniqueKeys (g : GlobalData) : Prop :=
  ∀ p q e e', g.entries p = some e → g.entries q = some e' → e.key = e'.key → p = q

/-- No entry has the key `k`. -/
def GlobalData.Lacks (g : GlobalData) (k : Bytes) : Prop :=
  ∀ p e, g.entries p = some e → e.key ≠ k

theorem GlobalData.Wf.lacks_iff (w : g.Wf) : g.Lacks k ↔ g.copies k = [] := by
  constructor
  · intro h
    apply List.eq_nil_iff_forall_not_mem.mpr
    intro n hn
    obtain ⟨e, he, -, hk⟩ := w.copy hn
    exact h _ e he hk
  · intro h p e he hk
    have := (w.mem_copies he).1
    rw [hk, h] at this; cases this

/-- A `set` is of a key that is not stored. -/
def SetsNewKey (g : GlobalData) (cmd : List Bytes) : Prop := ∀ key ∈ setKey cmd, g.copies key = []

instance (g : GlobalData) (cmd : List Bytes) : Decidable (SetsNewKey g cmd) :=
  inferInstanceAs (Decidable (∀ key ∈ _, _))

/-! ## Steps -/

theorem GlobalData.Lacks.frame {E : Store Entry} (h : g.Lacks k) (hf : SameFrame g.entries E) :
    Lacks { g with entries := E } k := by
  intro p e he hk
  obtain ⟨e₁, he₁, hf₁⟩ := hf.before he
  exact h p e₁ he₁ ((Entry.frame_eq hf₁).2.1.symm.trans hk)

theorem GlobalData.UniqueKeys.frame {E : Store Entry} (h : g.UniqueKeys)
    (hf : SameFrame g.entries E) : UniqueKeys { g with entries := E } := by
  intro p q e e' he he' hk
  obtain ⟨e₁, he₁, hf₁⟩ := hf.before he
  obtain ⟨e₂, he₂, hf₂⟩ := hf.before he'
  exact h p q e₁ e₂ he₁ he₂
    ((Entry.frame_eq hf₁).2.1.symm.trans (hk.trans (Entry.frame_eq hf₂).2.1))

theorem GlobalData.Created.entry {e e' : Entry} {m : HMap} (hc : Created g e m g') {p : Ptr}
    (hp : g'.entries p = some e') : p = g.next ∧ e' = e ∨ g.entries p = some e' := by
  rw [hc.data] at hp
  have hp : g.entries.write g.next e p = some e' := hp
  by_cases h : p = g.next
  · rw [h, Store.write_self] at hp
    exact .inl ⟨h, (Option.some.inj hp).symm⟩
  · rw [Store.write_of_ne _ _ h] at hp
    exact .inr hp

theorem GlobalData.Created.lacks {e : Entry} {m : HMap} (hc : Created g e m g') (hk : e.key ≠ k)
    (h : g.Lacks k) : g'.Lacks k := by
  intro p e' hp
  rcases hc.entry hp with ⟨-, rfl⟩ | hp
  · exact hk
  · exact h p e' hp

theorem GlobalData.Created.unique {e : Entry} {m : HMap} (hc : Created g e m g')
    (hk : g.Lacks e.key) (h : g.UniqueKeys) : g'.UniqueKeys := by
  intro p q e₁ e₂ hp hq hkey
  rcases hc.entry hp with ⟨hp', rfl⟩ | hp
  · rcases hc.entry hq with ⟨hq', rfl⟩ | hq
    · rw [hp', hq']
    · exact absurd hkey.symm (hk q e₂ hq)
  · rcases hc.entry hq with ⟨-, rfl⟩ | hq
    · exact absurd hkey (hk p e₁ hp)
    · exact h p q e₁ e₂ hp hq hkey

theorem GlobalData.Erased.entry {n : HNode} (he : Erased g key n g') {p : Ptr} {e' : Entry}
    (hp : g'.entries p = some e') : ∃ e, g.entries p = some e ∧ e'.key = e.key := by
  obtain ⟨e, h, hf⟩ := he.frame.before hp
  exact ⟨e, (Store.free_eq_some.mp h).2, (Entry.frame_eq hf).2.1⟩

/-- A lookup that finds nothing: the key is not stored. -/
theorem GlobalData.Looked.lacks (h : Looked g k g' none) : g'.Lacks k := by
  have hnone := Option.map_eq_none_iff.mp h.found.symm
  exact h.wf.lacks_iff.mpr (List.head?_eq_none_iff.mp hnone)

variable {ks : Keys}

theorem Change.unique (hc : ∀ key ∈ ks.stored, g.Lacks key) (h : Change ks g g')
    (hu : g.UniqueKeys) : g'.UniqueKeys := by
  cases h with
  | idle => exact hu
  | looked _ hf => exact hu.frame hf
  | @created g₁ g₂ g' e m h₁ hcr _ hf =>
    have hlacks : g₁.Lacks e.key ∧ g₁.UniqueKeys := by
      rcases h₁ with ⟨rfl, hk⟩ | ⟨hl, -⟩
      · exact ⟨hc _ hk, hu⟩
      · exact ⟨hl.lacks, by rw [hl.data]; exact hu⟩
    exact (hcr.unique hlacks.1 hlacks.2).frame hf
  | erased _ he =>
    intro p q e e' hp hq hk
    obtain ⟨e₁, h₁, hk₁⟩ := he.entry hp
    obtain ⟨e₂, h₂, hk₂⟩ := he.entry hq
    exact hu p q e₁ e₂ h₁ h₂ (hk₁.symm.trans (hk.trans hk₂))

theorem Change.lacks (hs : k ∉ ks.stored) (ha : k ∉ ks.added) (h : Change ks g g')
    (hl : g.Lacks k) : g'.Lacks k := by
  cases h with
  | idle => exact hl
  | looked _ hf => exact hl.frame hf
  | @created g₁ g₂ g' e m h₁ hcr _ hf =>
    have hlacks : e.key ≠ k ∧ g₁.Lacks k := by
      rcases h₁ with ⟨rfl, hk⟩ | ⟨hlk, hk⟩
      · exact ⟨fun he => hs (he ▸ hk), hl⟩
      · exact ⟨fun he => ha (he ▸ hk), by rw [hlk.data]; exact hl⟩
    exact (hcr.lacks hlacks.1 hlacks.2).frame hf
  | erased _ he =>
    intro p e hp hk
    obtain ⟨e₁, h₁, hk₁⟩ := he.entry hp
    exact hl p e₁ h₁ (hk₁.symm.trans hk)

theorem serve_unique {ev : Event} (hi : g.Wf ∧ g.UniqueKeys)
    (hc : ev.Meets SetsNewKey (fun _ => True) g) (h : serve lim g ev = .ok g') :
    g'.Wf ∧ g'.UniqueKeys :=
  serve_invariant (I := fun g => g.Wf ∧ g.UniqueKeys)
    (fun _ _ _ _ hi hc he => ⟨(he.change hi.1).wf hi.1, (he.change hi.1).unique
      (fun key hk => hi.1.lacks_iff.mpr (hc key hk)) hi.2⟩)
    (fun _ _ hi _ he => ⟨(expireTop_change hi.1 he).wf hi.1,
      (expireTop_change hi.1 he).unique (fun _ hk => by cases hk) hi.2⟩) hi hc h

/-- The request stores no entry under `k`. -/
def LeavesOut (k : Bytes) (cmd : List Bytes) : Prop := k ∉ setKey cmd ∧ k ∉ zaddKey cmd

instance (k : Bytes) (cmd : List Bytes) : Decidable (LeavesOut k cmd) :=
  inferInstanceAs (Decidable (_ ∧ _))

theorem serve_lacks {ev : Event} (hi : g.Wf ∧ g.Lacks k)
    (hc : ev.Meets (fun _ => LeavesOut k) (fun _ => True) g) (h : serve lim g ev = .ok g') :
    g'.Wf ∧ g'.Lacks k :=
  serve_invariant (I := fun g => g.Wf ∧ g.Lacks k)
    (fun _ _ _ _ hi hc he => ⟨(he.change hi.1).wf hi.1, (he.change hi.1).lacks hc.1 hc.2 hi.2⟩)
    (fun _ _ hi _ he => ⟨(expireTop_change hi.1 he).wf hi.1,
      (expireTop_change hi.1 he).lacks (fun hk => by cases hk) (fun hk => by cases hk) hi.2⟩)
    hi hc h

/-! ## Answers on a key that is not stored -/

variable {out : Bytes}

theorem lookupEntry_lacks (w : g.Wf) (hx : g.db.Exact) (h : g.Lacks k) :
    ∃ g', lookupEntry g k = .ok (g', none) := by
  obtain ⟨g', r, hl, hlk, -⟩ := lookupEntry_total w hx k
  have h' : g'.Lacks k := by rw [hlk.data]; exact h
  have hr := hlk.found
  rw [hlk.wf.lacks_iff.mp h'] at hr
  exact ⟨g', by rw [hl, hr]; rfl⟩

theorem get_lacks (w : g.Wf) (hx : g.db.Exact) (h : g.Lacks k) :
    ∃ g', doRequest lim now g [ascii "get", k] out = .ok (g', .RES_NX, outInt out 2) := by
  obtain ⟨g', hl⟩ := lookupEntry_lacks w hx h
  have hget : doRequest lim now g [ascii "get", k] out = doGet g [ascii "get", k] out := rfl
  refine ⟨g', ?_⟩
  rw [hget]
  unfold doGet
  rw [bind_arg k rfl]
  simp [hl, ResCode.toNat]

theorem ttl_lacks (w : g.Wf) (hx : g.db.Exact) (h : g.Lacks k) :
    ∃ g', doRequest lim now g [ascii "ttl", k] out = .ok (g', .RES_OK, outInt out (-2)) := by
  obtain ⟨g', hl⟩ := lookupEntry_lacks w hx h
  have httl : doRequest lim now g [ascii "ttl", k] out = doTtl g now [ascii "ttl", k] out := rfl
  refine ⟨g', ?_⟩
  rw [httl]
  unfold doTtl
  rw [bind_arg k rfl]
  simp [hl]

theorem del_lacks (w : g.Wf) (hx : g.db.Exact) (h : g.Lacks k) :
    ∃ g', doRequest lim now g [ascii "del", k] out = .ok (g', .RES_OK, outInt out 0) := by
  obtain ⟨db, r, hd⟩ := hmDelete_total w.shape hx (w.eq_ok k)
  obtain ⟨m, j, -, hj, hf, -⟩ := delete_spec w hd
  have hm : Lacks { g with db := m } k := h
  rw [(w.helped hj).lacks_iff.mp hm] at hf
  cases hf
  have hdel : doRequest lim now g [ascii "del", k] out = doDel g [ascii "del", k] out := rfl
  refine ⟨{ g with db := db }, ?_⟩
  rw [hdel]
  unfold doDel
  rw [bind_arg k rfl]
  simp [hd]

/-- `keys` does not list it. -/
theorem keys_lacks (w : g.Wf) (hx : g.db.Exact) (h : g.Lacks k) :
    ∃ keys : List Bytes, doRequest lim now g [ascii "keys"] [] =
      .ok (g, .RES_OK, keys.foldl outStr (outArr [] keys.length)) ∧ k ∉ keys := by
  have hkeys : doRequest lim now g [ascii "keys"] [] = doKeys g [ascii "keys"] [] := rfl
  refine ⟨g.storedKeys, ?_, ?_⟩
  · rw [hkeys, doKeys_eq w (hx.scannable w.shape), foldl_outStr, w.storedKeys_length]
  · intro hk
    obtain ⟨n, -, hn⟩ := List.mem_filterMap.mp hk
    obtain ⟨e, he, hek⟩ := Option.map_eq_some_iff.mp hn
    exact h _ e he hek

/-- With unique keys, a `del` that answers 1 leaves no entry with its key. -/
theorem del_lacks_after (w : g.Wf) (hu : g.UniqueKeys)
    (h : doRequest lim now g [ascii "del", k] [] = .ok (g', .RES_OK, outInt [] 1)) :
    g'.Wf ∧ g'.Lacks k := by
  have h : doDel g [ascii "del", k] [] = .ok (g', .RES_OK, outInt [] 1) := h
  unfold doDel at h
  rw [bind_arg k rfl] at h
  obtain ⟨⟨db, r⟩, hd, h⟩ := bind_ok.mp h
  cases r with
  | none =>
    have hout : outInt [] 0 ≠ outInt [] 1 := by decide +kernel
    simp only [pure_ok, Except.ok.injEq, Prod.mk.injEq] at h
    exact absurd h.2.2 hout
  | some n =>
    obtain ⟨g₁, he, h⟩ := bind_ok.mp h
    cases h
    obtain ⟨her, -, -⟩ := deleted_spec w hd he
    refine ⟨her.wf, ?_⟩
    intro p e hp hk
    obtain ⟨e₁, -, he₁, -, hkey⟩ := her.resolve w
    obtain ⟨e₂, h₂, hf₂⟩ := her.frame.before hp
    obtain ⟨hne, h₂⟩ := Store.free_eq_some.mp h₂
    exact hne (hu p n.ptr e₂ e₁ h₂ he₁ ((Entry.frame_eq hf₂).2.1.symm.trans (hk.trans hkey.symm)))

/-- **Keys are unique, and a deletion erases**, after a history in which every `set` is of a key
that is not stored.  The answers after a `del` that answered 1, and after any steps that do not
store its key again, are those for a missing key when no deletion takes a node of ht2. -/
theorem unique_keys_and_del_erases (lim : Limits) (evs : List Event) (g₀ : GlobalData)
    (hset : AllSteps (serve lim) (fun g ev => ev.Meets SetsNewKey (fun _ => True) g) {} evs)
    (hr : run (serve lim) {} evs = .ok g₀) :
    (∀ n ∈ g₀.db.order, ∀ n' ∈ g₀.db.order, ∀ key, hasKey g₀.entries key n →
      hasKey g₀.entries key n' → n = n') ∧
    ∀ (t₀ t : UInt64) (k : Bytes) (g₁ g : GlobalData) (post : List Event),
      doRequest lim t₀ g₀ [ascii "del", k] [] = .ok (g₁, .RES_OK, outInt [] 1) →
      run (serve lim) g₁ post = .ok g →
      AllSteps (serve lim) (fun g ev => ev.Meets (fun _ => LeavesOut k) (fun _ => True) g) g₁ post →
      AllSteps (serve lim) (fun g ev => ev.Meets ChargedDel ChargedExpiry g) {}
        (evs ++ .request t₀ [ascii "del", k] :: post) →
      (∃ g', doRequest lim t g [ascii "get", k] [] = .ok (g', .RES_NX, outInt [] 2)) ∧
      (∃ g', doRequest lim t g [ascii "ttl", k] [] = .ok (g', .RES_OK, outInt [] (-2))) ∧
      (∃ keys : List Bytes, doRequest lim t g [ascii "keys"] [] =
        .ok (g, .RES_OK, keys.foldl outStr (outArr [] keys.length)) ∧ k ∉ keys) ∧
      (∃ g', doRequest lim t g [ascii "del", k] [] = .ok (g', .RES_OK, outInt [] 0)) := by
  have hu : g₀.Wf ∧ g₀.UniqueKeys :=
    run_invariant (I := fun g => g.Wf ∧ g.UniqueKeys) (fun _ _ _ hi hc h => serve_unique hi hc h)
      ⟨.empty, fun p q e e' he => by cases he⟩ hset hr
  constructor
  · intro n hn n' hn' key hk hk'
    obtain ⟨e, he, hkey⟩ := hasKey_iff.mp hk
    obtain ⟨e', he', hkey'⟩ := hasKey_iff.mp hk'
    have hp := hu.2 _ _ e e' he he' (hkey.trans hkey'.symm)
    exact List.inj_on_of_nodup_map hu.1.shape.nodup hn hn' hp
  · intro t₀ t k g₁ g post hd hpost hleave hcharge
    have h₁ := del_lacks_after hu.1 hu.2 hd
    have hl : g.Wf ∧ g.Lacks k := run_invariant (I := fun g => g.Wf ∧ g.Lacks k)
      (fun _ _ _ hi hc h => serve_lacks hi hc h) h₁ hleave hpost
    have hx : g.Wf ∧ g.db.Exact := run_invariant (I := fun g => g.Wf ∧ g.db.Exact)
      (fun _ _ _ hi hc h => serve_exact hi hc h) ⟨.empty, HMap.exact_empty⟩ hcharge
      (run_append_ok.mpr ⟨g₀, hr, run_cons_ok.mpr ⟨g₁, serve_request.mpr ⟨_, _, hd⟩, hpost⟩⟩)
    exact ⟨get_lacks hl.1 hx.2 hl.2, ttl_lacks hl.1 hx.2 hl.2,
      keys_lacks hl.1 hx.2 hl.2, del_lacks hl.1 hx.2 hl.2⟩

/-- A string and a sorted set; the string is deleted next. -/
def delHistory : List Event := [ask 0 ["set", "k", "a"], ask 1 ["zadd", "z", "1", "m"]]

def delBefore : GlobalData := (run (serve ⟨64, 0⟩) {} delHistory).toOption.getD {}

def delAfter : GlobalData := (serve ⟨64, 0⟩ delBefore (ask 2 ["del", "k"])).toOption.getD {}

theorem unique_keys_and_del_erases_set : ∃ g g',
    doRequest ⟨64, 0⟩ 2 delBefore [ascii "del", ascii "k"] [] =
      .ok (delAfter, .RES_OK, outInt [] 1) ∧
      run (serve ⟨64, 0⟩) delAfter [ask 3 ["keys"], ask 4 ["set", "j", "b"]] = .ok g ∧
      doRequest ⟨64, 0⟩ 5 g [ascii "get", ascii "k"] [] = .ok (g', .RES_NX, outInt [] 2) := by
  have hanswer : answer ⟨64, 0⟩ 2 delBefore [ascii "del", ascii "k"] =
      some (.RES_OK, outInt [] 1) := by decide +kernel
  obtain ⟨g₁, hdel⟩ := answer_eq_some.mp hanswer
  have hserve : serve ⟨64, 0⟩ delBefore (ask 2 ["del", "k"]) = .ok delAfter :=
    ok_getD (by decide +kernel)
  have hg₁ : serve ⟨64, 0⟩ delBefore (ask 2 ["del", "k"]) = .ok g₁ :=
    serve_request.mpr ⟨_, _, hdel⟩
  rw [hserve] at hg₁
  cases hg₁
  obtain ⟨g, hg⟩ := ok_of_isSome (x := run (serve ⟨64, 0⟩) delAfter
    [ask 3 ["keys"], ask 4 ["set", "j", "b"]]) (by decide +kernel)
  obtain ⟨⟨g', hget⟩, -⟩ := (unique_keys_and_del_erases ⟨64, 0⟩ delHistory delBefore
    (by decide +kernel) (ok_getD (by decide +kernel))).2 2 5 (ascii "k") delAfter g
    [ask 3 ["keys"], ask 4 ["set", "j", "b"]] hdel hg (by decide +kernel) (by decide +kernel)
  exact ⟨g, g', hdel, hg, hget⟩

def setTwice : GlobalData := (run (serve ⟨64, 0⟩) {}
  [ask 0 ["set", "k", "a"], ask 1 ["set", "k", "b"]]).toOption.getD {}

def setTwiceDel : GlobalData := (serve ⟨64, 0⟩ setTwice (ask 2 ["del", "k"])).toOption.getD {}

/-- A key that is set twice is stored twice, and its first `del` uncovers the older entry. -/
theorem del_uncovers_older_entry :
    run (serve ⟨64, 0⟩) {} [ask 0 ["set", "k", "a"], ask 1 ["set", "k", "b"]] = .ok setTwice ∧
      (setTwice.copies (ascii "k")).length = 2 ∧
      serve ⟨64, 0⟩ setTwice (ask 2 ["del", "k"]) = .ok setTwiceDel ∧
      answer ⟨64, 0⟩ 2 setTwice [ascii "del", ascii "k"] = some (.RES_OK, outInt [] 1) ∧
      answer ⟨64, 0⟩ 3 setTwiceDel [ascii "get", ascii "k"] =
        some (.RES_OK, outStr [] (ascii "a")) :=
  ⟨ok_getD (by decide +kernel), by decide +kernel, ok_getD (by decide +kernel),
    by decide +kernel, by decide +kernel⟩

end RedisServer
