import RedisServer.Stacks
import RedisServer.KeysListing
import RedisServer.TtlUpdate
import RedisServer.LastWrite

/-!
# The keyspace refines a map of stacks

`GlobalData.asStacks` reads the map of stacks off the data: under each key the copies in the order of
a lookup, each with its text, its sorted set and the deadline of its heap slot.  It is a refinement
mapping: what `do_request` and `process_timers` do, resizes, migrations, heap moves and stale slots
included, is in its image a step of `Stacks`, with the same answer.

The one condition is that no migration moves a copy of a key past another one.

* `expireLoop_stacks` — the TTL loop takes away the slots that are due;
* `mirrors_request` — each request does what its command does, handler by handler.
-/

set_option autoImplicit false

namespace RedisServer

open Runs GlobalData

variable {lim : Limits} {g g' : GlobalData} {key k : Bytes} {now : UInt64}

/-! ## The refinement mapping -/

/-- An entry as a slot. -/
def GlobalData.slotOf (g : GlobalData) (e : Entry) : Slot := ⟨e.val, e.zset, g.deadline e⟩

def GlobalData.slotAt (g : GlobalData) (p : Ptr) : Option Slot := (g.entries p).map g.slotOf

def GlobalData.asStacks (g : GlobalData) : Stacks := fun key =>
  (g.copies key).filterMap fun n => g.slotAt n.ptr

theorem slotAt_of {p : Ptr} {e : Entry} (he : g.entries p = some e) :
    g.slotAt p = some (g.slotOf e) := by
  rw [slotAt, he]
  rfl

theorem GlobalData.Wf.copies_nodup (w : g.Wf) (key : Bytes) :
    ((g.copies key).map HNode.ptr).Nodup :=
  w.shape.nodup.sublist (List.filter_sublist.map HNode.ptr)

/-- The copies of different keys are different entries. -/
theorem GlobalData.Wf.copies_disjoint (w : g.Wf) {n n' : HNode} (hn : n ∈ g.copies key)
    (hn' : n' ∈ g.copies k) (hk : k ≠ key) : n'.ptr ≠ n.ptr := by
  intro hp
  obtain ⟨e, he, -, hkey⟩ := w.copy hn
  obtain ⟨e', he', -, hkey'⟩ := w.copy hn'
  rw [hp, he] at he'
  cases he'
  exact hk (hkey'.symm.trans hkey)

theorem GlobalData.Wf.copies_tail (w : g.Wf) {n n' : HNode} {rest : List HNode}
    (hc : g.copies key = n :: rest) (hn' : n' ∈ rest) : n'.ptr ≠ n.ptr := by
  have hnd := w.copies_nodup key
  rw [hc, List.map_cons, List.nodup_cons] at hnd
  exact fun hp => hnd.1 (hp ▸ List.mem_map_of_mem hn')

theorem GlobalData.Wf.stacks_length (w : g.Wf) (key : Bytes) :
    (g.asStacks key).length = (g.copies key).length := by
  have hsome : ∀ n ∈ g.copies key, ∃ slot, g.slotAt n.ptr = some slot := by
    intro n hn
    obtain ⟨e, he, -⟩ := w.copy hn
    exact ⟨_, slotAt_of he⟩
  have h := congrArg List.length (map_some_filterMap hsome)
  rwa [List.length_map, List.length_map] at h

theorem stacks_cons {n : HNode} {rest : List HNode} {slot : Slot} (hc : g.copies key = n :: rest)
    (hs : g.slotAt n.ptr = some slot) :
    g.asStacks key = slot :: rest.filterMap fun n => g.slotAt n.ptr := by
  simp only [asStacks, hc, List.filterMap_cons, hs]

theorem stacks_congr (hc : ∀ key, g'.copies key = g.copies key)
    (hs : ∀ p, g'.slotAt p = g.slotAt p) : g'.asStacks = g.asStacks := by
  funext key
  rw [asStacks, asStacks, hc]
  exact List.filterMap_congr fun n _ => hs n.ptr

/-- The first copy is given another slot. -/
theorem stacks_setTop (w : g.Wf) {n : HNode} {rest : List HNode} {slot : Slot}
    (hc : g.copies key = n :: rest) (hcopies : ∀ k, g'.copies k = g.copies k)
    (hown : g'.slotAt n.ptr = some slot) (hothers : ∀ q, q ≠ n.ptr → g'.slotAt q = g.slotAt q) :
    g'.asStacks = g.asStacks.setTop key slot := by
  obtain ⟨e, he, -⟩ := w.copy (hc ▸ List.mem_cons_self : n ∈ g.copies key)
  funext k
  unfold Stacks.setTop Stacks.put
  by_cases hk : k = key
  · subst hk
    rw [Function.update_self, stacks_cons hc (slotAt_of he), List.tail_cons,
      stacks_cons ((hcopies k).trans hc) hown]
    congr 1
    exact List.filterMap_congr fun n' hn' => hothers _ (w.copies_tail hc hn')
  · rw [Function.update_of_ne hk, asStacks, asStacks, hcopies]
    refine List.filterMap_congr fun n' hn' => hothers _ ?_
    exact w.copies_disjoint (hc ▸ List.mem_cons_self) hn' hk

/-- The first copy is taken away. -/
theorem stacks_pop (w : g.Wf) {n : HNode} {rest : List HNode} (hc : g.copies key = n :: rest)
    (hcopies : ∀ k, g'.copies k = (g.copies k).filter (· != n))
    (hothers : ∀ q, q ≠ n.ptr → g'.slotAt q = g.slotAt q) : g'.asStacks = g.asStacks.pop key := by
  obtain ⟨e, he, -⟩ := w.copy (hc ▸ List.mem_cons_self : n ∈ g.copies key)
  funext k
  unfold Stacks.pop Stacks.put
  by_cases hk : k = key
  · subst hk
    have hrest : n ∉ rest := fun hn => w.copies_tail hc hn rfl
    rw [Function.update_self, stacks_cons hc (slotAt_of he), List.tail_cons, asStacks, hcopies, hc,
      List.filter_cons_of_neg (by simp), filter_bne_of_notMem hrest]
    exact List.filterMap_congr fun n' hn' => hothers _ (w.copies_tail hc hn')
  · have hn : n ∈ g.copies key := hc ▸ List.mem_cons_self
    have hnot : n ∉ g.copies k := fun hn' => w.copies_disjoint hn hn' hk rfl
    rw [Function.update_of_ne hk, asStacks, asStacks, hcopies, filter_bne_of_notMem hnot]
    exact List.filterMap_congr fun n' hn' => hothers _ (w.copies_disjoint hn hn' hk)

/-- A new entry becomes the first copy of its key. -/
theorem GlobalData.Created.asStacks (w : g.Wf) {e : Entry} {m : HMap} (hc : Created g e m g')
    (ho : ∀ k, g.LinkKeepsOrder e.key k) (hi : e.heapIdx = none) :
    g'.asStacks = g.asStacks.push e.key ⟨e.val, e.zset, none⟩ := by
  have hentries : g'.entries = g.entries.write g.next e := by rw [hc.data]
  have hdeadline : g'.deadline = g.deadline := by
    funext e'
    rw [hc.data]
    rfl
  have hnew : g'.slotAt g.next = some ⟨e.val, e.zset, none⟩ := by
    rw [slotAt, hentries, Store.write_self, Option.map_some, slotOf, deadline, hi]
    rfl
  have hold : ∀ k, ∀ n ∈ g.copies k, g'.slotAt n.ptr = g.slotAt n.ptr := by
    intro k n hn
    obtain ⟨e', he', -⟩ := w.copy hn
    have hne : n.ptr ≠ g.next := by
      intro hp
      rw [hp, w.fresh _ (Nat.le_refl _)] at he'
      cases he'
    rw [slotAt, slotAt, hentries, Store.write_of_ne _ _ hne, he', Option.map_some, Option.map_some,
      slotOf, slotOf, hdeadline]
  funext k
  unfold Stacks.push Stacks.put
  have hcopies := hc.copies w (hc.keepsOrder (ho k))
  by_cases hk : e.key = k
  · subst hk
    rw [if_pos rfl] at hcopies
    have hnode : g'.slotAt e.node.ptr = some ⟨e.val, e.zset, none⟩ := by
      rw [hc.node]
      exact hnew
    rw [Function.update_self, stacks_cons hcopies hnode]
    congr 1
    exact List.filterMap_congr (hold e.key)
  · rw [if_neg hk] at hcopies
    rw [Function.update_of_ne (Ne.symm hk), GlobalData.asStacks, GlobalData.asStacks, hcopies]
    exact List.filterMap_congr (hold k)

/-! ## Lookups -/

/-- What a lookup that passes no copy tells about the stack of its key. -/
structure GlobalData.Seen (g : GlobalData) (key : Bytes) (g' : GlobalData) (r : Option Ptr) :
    Prop where
  looked : Looked g key g' r
  copies : ∀ k, g'.copies k = g.copies k
  asStacks : g'.asStacks = g.asStacks

theorem lookupEntry_seen (w : g.Wf) (ho : ∀ k, g.db.KeepsOrder g.entries k) {r : Option Ptr}
    (h : lookupEntry g key = .ok (g', r)) : Seen g key g' r := by
  have hl := lookupEntry_spec w h
  have hcopies : ∀ k, g'.copies k = g.copies k := fun k => hl.copies w (ho k)
  refine ⟨hl, hcopies, stacks_congr hcopies ?_⟩
  intro p
  rw [hl.data]
  rfl

theorem GlobalData.Seen.missed (h : Seen g key g' none) : g.asStacks.top key = none := by
  have hnone := Option.map_eq_none_iff.mp h.looked.found.symm
  rw [← h.asStacks, Stacks.top, GlobalData.asStacks, List.head?_eq_none_iff.mp hnone]
  rfl

/-- The entry found is the top slot. -/
theorem GlobalData.Seen.found {p : Ptr} (h : Seen g key g' (some p)) :
    ∃ n rest e, g'.copies key = n :: rest ∧ n.ptr = p ∧ g'.entries p = some e ∧
      g.asStacks.top key = some (g'.slotOf e) := by
  obtain ⟨n, e, hhead, rfl, he, -⟩ := h.looked.some
  obtain ⟨rest, hc⟩ := List.head?_eq_some_iff.mp hhead
  refine ⟨n, rest, e, hc, rfl, he, ?_⟩
  rw [← h.asStacks, Stacks.top, stacks_cons hc (slotAt_of he)]
  rfl

/-- The handlers write back the sorted set of the entry they have found. -/
theorem GlobalData.Seen.write {p : Ptr} {e : Entry} (h : Seen g key g' (some p))
    (he : g'.entries p = some e) {z : ZSet} (hz : e.zset.isSome) :
    GlobalData.asStacks
        { g' with entries := g'.entries.write p { e with zset := some z } } =
      g.asStacks.setZSet key z := by
  obtain ⟨n, rest, e', hc, rfl, he', htop⟩ := h.found
  cases he.symm.trans he'
  rw [Stacks.setZSet, htop, ← h.asStacks]
  refine stacks_setTop h.looked.wf hc ?_ ?_ ?_
  · exact fun k => copies_frame (.write he (frame_zset z hz)) k
  · simp only [slotAt, Store.write_self, Option.map_some]
    rfl
  · intro q hq
    simp only [slotAt, Store.write_of_ne _ _ hq]
    rfl

/-! ## Deadlines -/

/-- An entry before and after a change of its TTL fields. -/
theorem slotAt_body {p : Ptr} {e e' : Entry} (he : g.entries p = some e)
    (he' : g'.entries p = some e') (hb : e'.body = e.body) (hd : g'.deadline e' = g.deadline e) :
    g'.slotAt p = g.slotAt p := by
  have hval : e'.body.val = e.body.val := by rw [hb]
  have hzset : e'.body.zset = e.body.zset := by rw [hb]
  rw [slotAt_of he, slotAt_of he', slotOf, slotOf, hd, show e'.val = e.val from hval,
    show e'.zset = e.zset from hzset]

/-- **`entry_set_ttl`** changes the deadline of its entry and no other slot. -/
theorem entrySetTtl_slots {F : Store Entry} (b : g.Backfill F) {p : Ptr} {e : Entry}
    (he : g.entries p = some e) {ttlMs : Int} (h : entrySetTtl g p ttlMs now = .ok g') :
    g'.slotAt p = some { g.slotOf e with
      deadline := if ttlMs < 0 then none else some (now + UInt64.ofInt ttlMs * 1000) } ∧
    ∀ q, q ≠ p → g'.slotAt q = g.slotAt q := by
  obtain ⟨F', b', hmore⟩ := b.timed he h
  obtain ⟨g₁, h₁, ok₁, hslots⟩ := @entrySetTtl_spec _ now b.ok p e (b.more p e he) ttlMs
  cases hmore.symm.trans h₁
  have hset := ttlSet_of_slots b.ok hmore ok₁ hslots
  have hr := (entrySetTtl_ok h).1
  constructor
  · obtain ⟨e', he', hb⟩ := hr.after he
    have hown : g'.deadline e' = _ := hset.own e' (b'.more p e' he')
    have hval : e'.body.val = e.body.val := by rw [hb]
    have hzset : e'.body.zset = e.body.zset := by rw [hb]
    rw [slotAt_of he', slotOf, hown, show e'.val = e.val from hval,
      show e'.zset = e.zset from hzset]
    rfl
  · intro q hq
    cases heq : g.entries q with
    | none => rw [slotAt, slotAt, heq, hr.gone heq]; rfl
    | some e₀ =>
      obtain ⟨e', he', hb⟩ := hr.after heq
      exact slotAt_body heq he' hb
        (hset.others q e₀ e' hq (b.more q e₀ heq) (b'.more q e' he'))

/-- The deadlines are those of the heap. -/
theorem GlobalData.Backfill.noneBefore {F : Store Entry} (b : g.Backfill F) {d : UInt64}
    (h : ∀ x ∈ g.heap, d ≤ x.val) : g.asStacks.NoneBefore d := by
  intro key slot hslot d' hd'
  obtain ⟨n, -, hn⟩ := List.mem_filterMap.mp hslot
  obtain ⟨e, he, rfl⟩ := Option.map_eq_some_iff.mp hn
  exact h _ ((b.deadline_iff he).mp hd')

/-- The first slot of the heap holds the earliest deadline. -/
theorem GlobalData.Backfill.first_le {F : Store Entry} (b : g.Backfill F) {top : HeapItem}
    (htop : g.heap[0]? = some top) : ∀ x ∈ g.heap, top.val ≤ x.val := by
  intro x hx
  obtain ⟨i, hi⟩ := List.mem_iff_getElem?.mp hx
  have hle := b.ok.ordered.root_le i (List.getElem?_eq_some_iff.mp hi).1
  have htop' : (g.withEntries F).heap[0]? = some top := htop
  have hi' : (g.withEntries F).heap[i]? = some x := hi
  rw [vals_of htop', vals_of hi'] at hle
  exact UInt64.le_iff_toNat_le.mpr hle

/-! ## Deletion -/

theorem GlobalData.Erased.asStacks (w : g.Wf) {n : HNode} (h : Erased g key n g')
    (ho : ∀ k, g.db.KeepsOrder g.entries k)
    (hothers : ∀ q, q ≠ n.ptr → g'.slotAt q = g.slotAt q) :
    (∃ rest, g.copies key = n :: rest) ∧ g'.asStacks = g.asStacks.pop key := by
  obtain ⟨m, -, ⟨j, hj⟩, -, hfirst⟩ := h.help
  rw [copies_helped w hj (ho key)] at hfirst
  obtain ⟨rest, hc⟩ := List.head?_eq_some_iff.mp hfirst.symm
  exact ⟨⟨rest, hc⟩, stacks_pop w hc (fun k => h.copies w (ho k)) hothers⟩

/-- **An iteration of the TTL loop** takes away a top slot, one with the earliest deadline. -/
theorem expireTop_stacks (w : g.Wf) {F : Store Entry} (b : g.Backfill F)
    (ho : ∀ k, g.db.KeepsOrder g.entries k) (h : expireTop g = .ok g') :
    ∃ top key slot, g.heap[0]? = some top ∧ g.asStacks.top key = some slot ∧
      slot.deadline = some top.val ∧ g.asStacks.NoneBefore top.val ∧
      g'.asStacks = g.asStacks.pop key := by
  obtain ⟨top, e, n, htop, he, hn, her⟩ := expireTop_spec w h
  obtain ⟨top', F', htop', b', hperm, hkept⟩ := b.expireTop h
  cases htop.symm.trans htop'
  have hothers : ∀ q, q ≠ n.ptr → g'.slotAt q = g.slotAt q := by
    rw [hn]
    intro q hq
    cases heq : g.entries q with
    | none =>
      have hfree : g.entries.free n.ptr q = none := (Store.free_of_ne _ (hn ▸ hq)).trans heq
      rw [slotAt, slotAt, heq, her.frame.gone hfree]
      rfl
    | some e₀ =>
      obtain ⟨e', he', hb⟩ := hkept q e₀ hq heq
      refine slotAt_body heq he' hb (Option.ext fun d => ?_)
      rw [b'.deadline_iff he', b.deadline_iff heq, ← hperm.mem_iff, List.mem_cons]
      refine (or_iff_right ?_).symm
      rintro rfl
      exact hq rfl
  obtain ⟨⟨rest, hc⟩, hpop⟩ := her.asStacks w ho hothers
  have hdeadline : g.deadline e = some top.val :=
    (b.deadline_iff he).mpr (List.mem_of_getElem? htop)
  refine ⟨top, e.key, g.slotOf e, htop, ?_, hdeadline, b.noneBefore (b.first_le htop), hpop⟩
  rw [Stacks.top, stacks_cons hc (slotAt_of (hn.symm ▸ he))]
  rfl

/-- **The TTL loop** takes away the slots that are due, the earliest first. -/
theorem expireLoop_stacks : ∀ {n : Nat} {g g' : GlobalData} {F : Store Entry}, g.Wf →
    g.Backfill F → EachExpiry now (fun g => ∀ k, OrderlyExpiry k g) n g →
    expireLoop now n g = .ok g' → Stacks.Expires now n g.asStacks g'.asStacks
  | 0, _, _, _, _, _, _, h => by
    cases h
    exact .full _
  | n + 1, g, g', F, w, b, hc, h => by
    rw [eachExpiry_succ] at hc
    unfold expireLoop at h
    cases hg : g.heap with
    | nil =>
      rw [hg] at h
      cases h
      refine .done (b.noneBefore fun x hx => ?_)
      rw [hg] at hx
      cases hx
    | cons top rest =>
      have htop : g.heap[0]? = some top := by rw [hg]; rfl
      rw [hg] at h
      dsimp only at h
      by_cases hdue : top.val < now
      · rw [if_pos hdue] at h
        obtain ⟨g₁, h₁, h⟩ := bind_ok.mp h
        obtain ⟨ho, hcs⟩ := hc top rest hg hdue
        obtain ⟨top', key, slot, htop', hslot, hd, hleast, hpop⟩ := expireTop_stacks w b ho h₁
        cases htop.symm.trans htop'
        obtain ⟨-, F', -, b', -⟩ := b.expireTop h₁
        have hrest := expireLoop_stacks ((expireTop_change w h₁).wf w) b' (hcs g₁ h₁) h
        exact .drop hslot hd hdue hleast (hpop ▸ hrest)
      · rw [if_neg hdue] at h
        cases h
        refine .done (b.noneBefore fun x hx => ?_)
        exact UInt64.le_trans (UInt64.not_lt.mp hdue) (b.first_le htop x hx)

/-! ## Requests -/

/-- The keys `keys` lists. -/
theorem GlobalData.Wf.lists (w : g.Wf) : g.asStacks.Lists g.storedKeys := by
  intro key
  rw [w.stacks_length, copies, GlobalData.storedKeys, List.count_filterMap, ← List.countP_eq_length_filter]
  refine List.countP_congr fun n hn => ?_
  obtain ⟨e, he, -⟩ := w.linked n hn
  rw [hasKey_of he, he]
  simp

/-- What the refinement rests on, in every reachable state. -/
structure GlobalData.Sound (g : GlobalData) : Prop where
  wf : g.Wf
  typed : g.Typed
  scannable : g.db.Scannable
  backfill : ∃ F, g.Backfill F

theorem GlobalData.Sound.empty : GlobalData.Sound {} where
  wf := .empty
  typed _ _ he := nomatch he
  scannable := .empty
  backfill := ⟨_, .empty⟩

theorem serve_sound (g : GlobalData) (ev : Event) (g' : GlobalData) (hi : g.Sound)
    (h : serve lim g ev = .ok g') : g'.Sound where
  wf := serve_wf g ev g' hi.wf h
  typed := (serve_typed g ev g' ⟨hi.wf, hi.typed⟩ h).2
  scannable := (serve_scannable g ev g' ⟨hi.wf, hi.scannable⟩ h).2
  backfill := (serve_backfill g ev g' ⟨hi.wf, hi.backfill⟩ h).2

/-- A request that returns does what the command does on the stacks. -/
def Mirrors (lim : Limits) (now : UInt64) (g : GlobalData) (cmd : List Bytes) (r : Handled) : Prop :=
  ∀ g' code out, r = .ok (g', code, out) → (∀ k, OrderlyRequest k g cmd) →
    ∃ ks, g.asStacks.Lists ks ∧ g.asStacks.ask lim now ks (.of cmd) = .ok (g'.asStacks, code, out)

theorem mirrors_keys (hi : g.Sound) :
    Mirrors lim now g [ascii "keys"] (doKeys g [ascii "keys"] []) := by
  intro g' code out h _
  rw [doKeys_eq hi.wf hi.scannable] at h
  cases h
  refine ⟨g.storedKeys, hi.wf.lists, ?_⟩
  have hof : Command.of [ascii "keys"] = .keys := rfl
  rw [hof, Stacks.ask, foldl_outStr, hi.wf.storedKeys_length]

theorem mirrors_get (hi : g.Sound) :
    Mirrors lim now g [ascii "get", key] (doGet g [ascii "get", key] []) := by
  intro g' code out h ho
  refine ⟨_, hi.wf.lists, ?_⟩
  have hof : Command.of [ascii "get", key] = .get key := rfl
  rw [hof, Stacks.ask]
  unfold doGet at h
  rw [bind_arg key rfl] at h
  obtain ⟨⟨g₁, r⟩, hl, h⟩ := bind_ok.mp h
  have hs := lookupEntry_seen hi.wf (fun k => (ho k).help (by simp [looksUp_two])) hl
  cases r with
  | none =>
    cases h
    rw [hs.missed, hs.asStacks]
    rfl
  | some p =>
    obtain ⟨n, rest, e, -, -, he, htop⟩ := hs.found
    rw [htop]
    obtain ⟨e', he', h⟩ := bind_ok.mp h
    cases (Store.read_of he).symm.trans he'
    obtain ⟨u, hu, h⟩ := bind_ok.mp h
    cases h
    have hlen : assert (decide ((g'.slotOf e).text.length ≤ maxMsg)) = .ok u := hu
    dsimp only
    rw [hlen, hs.asStacks]
    rfl

theorem mirrors_set {val : Bytes} (hi : g.Sound) :
    Mirrors lim now g [ascii "set", key, val] (doSet g [ascii "set", key, val] []) := by
  intro g' code out h ho
  refine ⟨_, hi.wf.lists, ?_⟩
  have hof : Command.of [ascii "set", key, val] = .set key val := rfl
  rw [hof, Stacks.ask]
  unfold doSet at h
  rw [bind_arg key rfl, bind_arg val rfl] at h
  obtain ⟨⟨g₁, p⟩, hins, h⟩ := bind_ok.mp h
  cases h
  obtain ⟨-, m, hc⟩ := insertEntry_spec hi.wf hins
  rw [hc.asStacks hi.wf (fun k => (ho k).set key (by simp)) rfl]
  rfl

theorem mirrors_del (hi : g.Sound) :
    Mirrors lim now g [ascii "del", key] (doDel g [ascii "del", key] []) := by
  intro g' code out h ho
  refine ⟨_, hi.wf.lists, ?_⟩
  have hof : Command.of [ascii "del", key] = .del key := rfl
  have horder : ∀ k, g.db.KeepsOrder g.entries k := fun k => (ho k).help (by simp [looksUp_two])
  rw [hof, Stacks.ask]
  unfold doDel at h
  rw [bind_arg key rfl] at h
  obtain ⟨⟨db, r⟩, hd, h⟩ := bind_ok.mp h
  cases r with
  | none =>
    cases h
    obtain ⟨m, j, -, hj, hnone, hdb⟩ := delete_spec hi.wf hd
    cases hdb
    have hcopies : ∀ k, GlobalData.copies { g with db := db } k = g.copies k := fun k =>
      copies_helped hi.wf hj (horder k)
    rw [hcopies] at hnone
    rw [Stacks.top, asStacks, List.head?_eq_none_iff.mp hnone.symm, stacks_congr hcopies fun _ => rfl]
    rfl
  | some n =>
    obtain ⟨g₁, he, h⟩ := bind_ok.mp h
    cases h
    obtain ⟨her, hheap, hentries⟩ := deleted_spec hi.wf hd he
    have hothers : ∀ q, q ≠ n.ptr → g'.slotAt q = g.slotAt q := by
      intro q hq
      have hdeadline : g'.slotOf = g.slotOf := by
        funext e
        rw [slotOf, slotOf, deadline, deadline, hheap]
      rw [slotAt, slotAt, hentries, Store.free_of_ne _ hq, hdeadline]
    obtain ⟨⟨rest, hc⟩, hpop⟩ := her.asStacks hi.wf horder hothers
    obtain ⟨e, he, -⟩ := hi.wf.copy (hc ▸ List.mem_cons_self : n ∈ g.copies key)
    rw [Stacks.top, stacks_cons hc (slotAt_of he), hpop]
    rfl

theorem mirrors_expire {s : Bytes} (hi : g.Sound) :
    Mirrors lim now g [ascii "expire", key, s] (doExpire g now [ascii "expire", key, s] []) := by
  intro g' code out h ho
  refine ⟨_, hi.wf.lists, ?_⟩
  have hof : Command.of [ascii "expire", key, s] = .expire key s := rfl
  rw [hof, Stacks.ask]
  unfold doExpire at h
  rw [bind_arg s rfl] at h
  cases hint : str2int s with
  | none =>
    rw [hint] at h
    cases h
    rfl
  | some ttlMs =>
    rw [hint] at h
    dsimp only at h ⊢
    rw [bind_arg key rfl] at h
    obtain ⟨⟨g₁, r⟩, hl, h⟩ := bind_ok.mp h
    have hs := lookupEntry_seen hi.wf
      (fun k => (ho k).help (by rw [looksUp_three (.inr (.inr ⟨rfl, by rw [hint]; rfl⟩))]; rfl)) hl
    cases r with
    | none =>
      cases h
      rw [hs.missed, hs.asStacks]
    | some p =>
      obtain ⟨n, rest, e, hc, rfl, he, htop⟩ := hs.found
      obtain ⟨g₂, hset, h⟩ := bind_ok.mp h
      cases h
      obtain ⟨F, b⟩ := hi.backfill
      have hdata := hs.looked.data
      have b₁ : g₁.Backfill F := b.congr (by rw [hdata]) (by rw [hdata]) (by rw [hdata])
      obtain ⟨hown, hothers⟩ := entrySetTtl_slots b₁ he hset
      obtain ⟨hr, hg₂⟩ := entrySetTtl_ok hset
      have hcopies : ∀ k, g'.copies k = g₁.copies k := by
        intro k
        rw [hg₂]
        exact copies_frame hr.sameFrame k
      rw [htop, stacks_setTop hs.looked.wf hc hcopies hown hothers, hs.asStacks]

theorem mirrors_ttl (hi : g.Sound) :
    Mirrors lim now g [ascii "ttl", key] (doTtl g now [ascii "ttl", key] []) := by
  intro g' code out h ho
  refine ⟨_, hi.wf.lists, ?_⟩
  have hof : Command.of [ascii "ttl", key] = .ttl key := rfl
  rw [hof, Stacks.ask]
  unfold doTtl at h
  rw [bind_arg key rfl] at h
  obtain ⟨⟨g₁, r⟩, hl, h⟩ := bind_ok.mp h
  have hs := lookupEntry_seen hi.wf (fun k => (ho k).help (by simp [looksUp_two])) hl
  cases r with
  | none =>
    cases h
    rw [hs.missed, hs.asStacks]
  | some p =>
    obtain ⟨n, rest, e, -, -, he, htop⟩ := hs.found
    rw [htop]
    obtain ⟨e', he', h⟩ := bind_ok.mp h
    cases (Store.read_of he).symm.trans he'
    cases hidx : e.heapIdx with
    | none =>
      rw [hidx] at h
      cases h
      have hnone : (g'.slotOf e).deadline = none := by rw [slotOf, deadline, hidx]; rfl
      dsimp only
      rw [hnone, hs.asStacks]
    | some pos =>
      rw [hidx] at h
      obtain ⟨x, hx, h⟩ := bind_ok.mp h
      cases h
      have hsome : (g'.slotOf e).deadline = some x.val := by
        rw [slotOf, deadline, hidx, Option.bind_some, itemAt_ok.mp hx]
        rfl
      dsimp only
      rw [hsome, hs.asStacks]

/-! ### Sorted sets -/

/-- The check of the three reading z-commands: the top slot holds a sorted set. -/
theorem GlobalData.Seen.setAt {p : Ptr} {e : Entry} (h : Seen g key g' (some p))
    (he : g'.entries p = some e) : g.asStacks.setAt key = e.zset := by
  obtain ⟨n, rest, e', -, -, he', htop⟩ := h.found
  cases he.symm.trans he'
  rw [Stacks.setAt, htop]
  rfl

theorem GlobalData.Seen.setAt_missed (h : Seen g key g' none) : g.asStacks.setAt key = none := by
  rw [Stacks.setAt, h.missed]
  rfl

theorem GlobalData.Typed.looked (ht : g.Typed) {r : Option Ptr} (h : Looked g key g' r) :
    g'.Typed := by
  intro p e he
  rw [h.entries] at he
  exact ht p e he

/-- Under a key that holds a string, or a NULL set, there is no sorted set. -/
theorem zset_of_guard (ht : g.Typed) {p : Ptr} {e : Entry} (he : g.entries p = some e)
    (hguard : e.type ≠ 1 ∨ e.zset.isNone) : e.zset = none := by
  rcases hguard with htype | hnone
  · rw [← Option.not_isSome_iff_eq_none, ht p e he]
    exact htype
  · exact Option.isNone_iff_eq_none.mp hnone

theorem Stacks.setTop_push (S : Stacks) (key : Bytes) (slot slot' : Slot) :
    (S.push key slot).setTop key slot' = S.push key slot' := by
  unfold Stacks.setTop Stacks.push Stacks.put
  rw [Function.update_self, Function.update_idem, List.tail_cons]

/-- `do_zadd` on a key that is not stored. -/
theorem inserted_stacks (w : g.Wf) {g₂ : GlobalData} {p : Ptr} {e : Entry} (z : ZSet)
    (hins : insertEntry g key [] 1 (some {}) = .ok (g₂, p)) (ho : ∀ k, g.LinkKeepsOrder key k)
    (he : g₂.entries p = some e) :
    e.zset = some {} ∧ GlobalData.asStacks
        { g₂ with entries := g₂.entries.write p { e with zset := some z } } =
      g.asStacks.push key { zset := some z } := by
  obtain ⟨rfl, m, hc⟩ := insertEntry_spec w hins
  have hnew : e = newEntry g key [] 1 (some {}) := by
    rw [hc.data] at he
    simp only [Store.write_self, Option.some.injEq] at he
    exact he.symm
  have hcopies : g₂.copies key = (newEntry g key [] 1 (some {})).node :: g.copies key := by
    rw [hc.copies w (hc.keepsOrder (ho key))]
    exact if_pos rfl
  have hslot : g₂.slotOf e = { zset := some {} } := by
    rw [hnew]
    rfl
  refine ⟨by rw [hnew]; rfl, ?_⟩
  rw [← Stacks.setTop_push _ _ { zset := some {} }]
  have hpush : g₂.asStacks = g.asStacks.push key { zset := some {} } := hc.asStacks w ho rfl
  rw [← hpush]
  refine stacks_setTop hc.wf hcopies ?_ ?_ ?_
  · have hz : e.zset.isSome := by rw [hnew]; rfl
    exact fun k => copies_frame (.write he (frame_zset z hz)) k
  · show Option.map _ (g₂.entries.write g.next _ g.next) = _
    rw [Store.write_self, Option.map_some, hnew]
    rfl
  · intro q hq
    have hq : q ≠ g.next := hq
    show Option.map _ (g₂.entries.write g.next _ q) = _
    rw [Store.write_of_ne _ _ hq]
    rfl

theorem mirrors_zadd (hi : g.Sound) (args : List Bytes) :
    Mirrors lim now g (ascii "zadd" :: args) (doZadd lim g (ascii "zadd" :: args) []) := by
  intro g' code out h ho
  refine ⟨_, hi.wf.lists, ?_⟩
  unfold doZadd at h
  split at h
  · rename_i hlen
    cases h
    have hof : Command.of (ascii "zadd" :: args) = .usage "Usage: zadd <key> <score> <name>" := by
      match args, hlen with
      | [], _ | [_], _ | [_, _], _ | _ :: _ :: _ :: _ :: _, _ => rfl
      | [_, _, _], hlen => exact absurd rfl hlen
    rw [hof]
    rfl
  · rename_i hlen
    match args, Decidable.not_not.mp hlen with
    | [key, s, name], _ =>
      have hof : Command.of [ascii "zadd", key, s, name] = .zadd key s name := rfl
      rw [hof, Stacks.ask]
      rw [bind_arg s rfl] at h
      obtain ⟨score, hscore, h⟩ := bind_ok.mp h
      rw [bind_arg name rfl, bind_arg key rfl] at h
      obtain ⟨⟨g₁, r⟩, hl, h⟩ := bind_ok.mp h
      obtain ⟨⟨g₂, p⟩, hentry, h⟩ := bind_ok.mp h
      obtain ⟨e, he, h⟩ := bind_ok.mp h
      obtain ⟨z, hz, h⟩ := bind_ok.mp h
      obtain ⟨⟨z', added⟩, hadd, h⟩ := bind_ok.mp h
      cases h
      have he := Store.read_ok.mp he
      have hz := zsetOf_ok.mp hz
      have hs := lookupEntry_seen hi.wf (fun k => (ho k).help
        (by rw [looksUp_four ⟨rfl, by rw [hscore]; rfl⟩]; rfl)) hl
      rw [hscore, ok_bind]
      cases r with
      | none =>
        have horder : ∀ k, g₁.LinkKeepsOrder key k := fun k => by
          simpa [hl, AddKeepsOrder] using (ho k).zadd key (by simp)
        obtain ⟨hnew, hstacks⟩ := inserted_stacks hs.looked.wf z' hentry horder he
        cases hz.symm.trans hnew
        rw [hs.missed, hstacks, hs.asStacks]
        dsimp only
        rw [hadd]
        rfl
      | some q =>
        cases hentry
        obtain ⟨n, rest, e', -, rfl, he', htop⟩ := hs.found
        cases he.symm.trans he'
        have hslot : (g₁.slotOf e).zset = some z := hz
        rw [htop, hs.write he (by rw [hz]; rfl)]
        dsimp only
        rw [hslot]
        dsimp only
        rw [hadd]
        rfl

theorem mirrors_zscore (hi : g.Sound) (args : List Bytes) :
    Mirrors lim now g (ascii "zscore" :: args) (doZscore g (ascii "zscore" :: args) []) := by
  intro g' code out h ho
  refine ⟨_, hi.wf.lists, ?_⟩
  unfold doZscore at h
  split at h
  · rename_i hlen
    cases h
    have hof : Command.of (ascii "zscore" :: args) = .usage "Usage: zscore <key> <name>" := by
      match args, hlen with
      | [], _ | [_], _ | _ :: _ :: _ :: _, _ => rfl
      | [_, _], hlen => exact absurd rfl hlen
    rw [hof]
    rfl
  · rename_i hlen
    match args, Decidable.not_not.mp hlen with
    | [key, name], _ =>
      have hof : Command.of [ascii "zscore", key, name] = .zscore key name := rfl
      rw [hof, Stacks.ask]
      rw [bind_arg key rfl] at h
      obtain ⟨⟨g₁, r⟩, hl, h⟩ := bind_ok.mp h
      have hs := lookupEntry_seen hi.wf
        (fun k => (ho k).help (by rw [looksUp_three (.inl rfl)]; rfl)) hl
      cases r with
      | none =>
        cases h
        rw [hs.setAt_missed, hs.asStacks]
      | some p =>
        obtain ⟨e, he, h⟩ := bind_ok.mp h
        have he := Store.read_ok.mp he
        rw [hs.setAt he]
        split at h
        · rename_i hguard
          cases h
          rw [zset_of_guard (hi.typed.looked hs.looked) he hguard, hs.asStacks]
        · obtain ⟨z, hz, h⟩ := bind_ok.mp h
          rw [bind_arg name rfl] at h
          obtain ⟨⟨z', member⟩, hlook, h⟩ := bind_ok.mp h
          have hz := zsetOf_ok.mp hz
          rw [hz]
          dsimp only
          rw [hlook, ok_bind]
          cases member with
          | none =>
            cases h
            rw [hs.write he (by rw [hz]; rfl)]
            rfl
          | some q =>
            obtain ⟨node, hnode, h⟩ := bind_ok.mp h
            cases h
            rw [hs.write he (by rw [hz]; rfl)]
            dsimp only
            rw [hnode]
            rfl

theorem mirrors_zrem (hi : g.Sound) (args : List Bytes) :
    Mirrors lim now g (ascii "zrem" :: args) (doZrem lim g (ascii "zrem" :: args) []) := by
  intro g' code out h ho
  refine ⟨_, hi.wf.lists, ?_⟩
  unfold doZrem at h
  split at h
  · rename_i hlen
    cases h
    have hof : Command.of (ascii "zrem" :: args) = .usage "Usage: zrem <key> <name>" := by
      match args, hlen with
      | [], _ | [_], _ | _ :: _ :: _ :: _, _ => rfl
      | [_, _], hlen => exact absurd rfl hlen
    rw [hof]
    rfl
  · rename_i hlen
    match args, Decidable.not_not.mp hlen with
    | [key, name], _ =>
      have hof : Command.of [ascii "zrem", key, name] = .zrem key name := rfl
      rw [hof, Stacks.ask]
      rw [bind_arg key rfl] at h
      obtain ⟨⟨g₁, r⟩, hl, h⟩ := bind_ok.mp h
      have hs := lookupEntry_seen hi.wf
        (fun k => (ho k).help (by rw [looksUp_three (.inr (.inl rfl))]; rfl)) hl
      cases r with
      | none =>
        cases h
        rw [hs.setAt_missed, hs.asStacks]
      | some p =>
        obtain ⟨e, he, h⟩ := bind_ok.mp h
        have he := Store.read_ok.mp he
        rw [hs.setAt he]
        split at h
        · rename_i hguard
          cases h
          rw [zset_of_guard (hi.typed.looked hs.looked) he hguard, hs.asStacks]
        · obtain ⟨z, hz, h⟩ := bind_ok.mp h
          rw [bind_arg name rfl] at h
          obtain ⟨⟨z', member⟩, hpop, h⟩ := bind_ok.mp h
          have hz := zsetOf_ok.mp hz
          rw [hz]
          dsimp only
          rw [hpop, ok_bind]
          cases member <;>
          · cases h
            rw [hs.write he (by rw [hz]; rfl)]
            rfl

theorem mirrors_zquery (hi : g.Sound) (args : List Bytes) :
    Mirrors lim now g (ascii "zquery" :: args) (doQuery lim g (ascii "zquery" :: args) []) := by
  intro g' code out h ho
  refine ⟨_, hi.wf.lists, ?_⟩
  unfold doQuery at h
  split at h
  · rename_i hlen
    cases h
    have hof : Command.of (ascii "zquery" :: args) =
        .usage "Usage: zquery <key> <score> <name> <offset> <limit>" := by
      match args, hlen with
      | [], _ | [_], _ | [_, _], _ | [_, _, _], _ | [_, _, _, _], _
      | _ :: _ :: _ :: _ :: _ :: _ :: _, _ => rfl
      | [_, _, _, _, _], hlen => exact absurd rfl hlen
    rw [hof]
    rfl
  · rename_i hlen
    match args, Decidable.not_not.mp hlen with
    | [key, s, name, off, limit], _ =>
      have hof : Command.of [ascii "zquery", key, s, name, off, limit] =
          .zquery key s name off limit := rfl
      rw [hof, Stacks.ask]
      rw [bind_arg key rfl] at h
      obtain ⟨⟨g₁, r⟩, hl, h⟩ := bind_ok.mp h
      have hs := lookupEntry_seen hi.wf (fun k => (ho k).help (by rw [looksUp_six rfl]; rfl)) hl
      cases r with
      | none =>
        cases h
        rw [hs.setAt_missed, hs.asStacks]
      | some p =>
        obtain ⟨e, he, h⟩ := bind_ok.mp h
        have he := Store.read_ok.mp he
        rw [hs.setAt he]
        split at h
        · rename_i hguard
          cases h
          rw [zset_of_guard (hi.typed.looked hs.looked) he hguard, hs.asStacks]
        · rw [bind_arg s rfl] at h
          obtain ⟨score, hscore, h⟩ := bind_ok.mp h
          rw [bind_arg name rfl, bind_arg off rfl] at h
          obtain ⟨offset, hoffset, h⟩ := bind_ok.mp h
          rw [bind_arg limit rfl] at h
          obtain ⟨count, hcount, h⟩ := bind_ok.mp h
          obtain ⟨z, hz, h⟩ := bind_ok.mp h
          obtain ⟨first, hfirst, h⟩ := bind_ok.mp h
          obtain ⟨start, hstart, h⟩ := bind_ok.mp h
          obtain ⟨out', hloop, h⟩ := bind_ok.mp h
          cases h
          rw [zsetOf_ok.mp hz]
          dsimp only
          rw [hscore, ok_bind, hoffset, ok_bind, hcount, ok_bind, hfirst, ok_bind, hstart, ok_bind,
            hloop, hs.asStacks]
          rfl

theorem Command.of_unknown {cmd : List Bytes} (h : ¬Known cmd) : Command.of cmd = .unknown := by
  cases cmd with
  | nil => rfl
  | cons name args =>
    unfold Command.of
    dsimp only
    have hknown : Known (name :: args) → False := h
    by_cases hkeys : name = ascii "keys"
    · rw [if_pos hkeys]
      match args, hknown with
      | [], hknown => exact (hknown ⟨name, rfl, .inl ⟨hkeys, rfl⟩⟩).elim
      | _ :: _, _ => rfl
    rw [if_neg hkeys]
    by_cases hget : name = ascii "get"
    · rw [if_pos hget]
      match args, hknown with
      | [_], hknown => exact (hknown ⟨name, rfl, .inr (.inl ⟨hget, rfl⟩)⟩).elim
      | [], _ | _ :: _ :: _, _ => rfl
    rw [if_neg hget]
    by_cases hset : name = ascii "set"
    · rw [if_pos hset]
      match args, hknown with
      | [_, _], hknown => exact (hknown ⟨name, rfl, .inr (.inr (.inl ⟨hset, rfl⟩))⟩).elim
      | [], _ | [_], _ | _ :: _ :: _ :: _, _ => rfl
    rw [if_neg hset]
    by_cases hdel : name = ascii "del"
    · rw [if_pos hdel]
      match args, hknown with
      | [_], hknown => exact (hknown ⟨name, rfl, .inr (.inr (.inr (.inl ⟨hdel, rfl⟩)))⟩).elim
      | [], _ | _ :: _ :: _, _ => rfl
    rw [if_neg hdel]
    have hz : ∀ z ∈ [ascii "zadd", ascii "zscore", ascii "zrem", ascii "zquery"], name ≠ z := by
      intro z hz hname
      refine hknown ⟨name, rfl, ?_⟩
      simp only [List.mem_cons, List.not_mem_nil, or_false] at hz
      rcases hz with rfl | rfl | rfl | rfl <;> simp [hname]
    rw [if_neg (hz _ (by simp)), if_neg (hz _ (by simp)), if_neg (hz _ (by simp)),
      if_neg (hz _ (by simp))]
    by_cases hexpire : name = ascii "expire"
    · rw [if_pos hexpire]
      match args, hknown with
      | [_, _], hknown => exact (hknown ⟨name, rfl, by simp [hexpire]⟩).elim
      | [], _ | [_], _ | _ :: _ :: _ :: _, _ => rfl
    rw [if_neg hexpire]
    by_cases httl : name = ascii "ttl"
    · rw [if_pos httl]
      match args, hknown with
      | [_], hknown => exact (hknown ⟨name, rfl, by simp [httl]⟩).elim
      | [], _ | _ :: _ :: _, _ => rfl
    rw [if_neg httl]

/-- **Every request** that returns does what its command does on the stacks. -/
theorem mirrors_request (hi : g.Sound) (cmd : List Bytes) :
    Mirrors lim now g cmd (doRequest lim now g cmd []) := by
  refine doRequest_cases (motive := fun cmd r => Mirrors lim now g cmd r)
    ?keys ?get ?set ?del ?zadd ?zscore ?zrem ?zquery ?expire ?ttl ?unknown cmd
  case keys => exact mirrors_keys hi
  case get => exact fun _ => mirrors_get hi
  case set => exact fun _ _ => mirrors_set hi
  case del => exact fun _ => mirrors_del hi
  case zadd => exact mirrors_zadd hi
  case zscore => exact mirrors_zscore hi
  case zrem => exact mirrors_zrem hi
  case zquery => exact mirrors_zquery hi
  case expire => exact fun _ _ => mirrors_expire hi
  case ttl => exact fun _ => mirrors_ttl hi
  case unknown =>
    intro cmd hk g' code out h _
    cases h
    exact ⟨_, hi.wf.lists, by rw [Command.of_unknown hk]; rfl⟩

end RedisServer
