import RedisServer.HashTable
import RedisServer.Lib.Buckets

/-!
# The hash map's invariant through inserts, lookups and deletes

* `HMap.Shape` — what every call keeps, in any phase of a resize: both tables are well placed, the
  buckets below the cursor are empty, no node is linked twice, and the two `size` fields add up to
  the number of linked nodes.  It does not say that each `size` is right by itself: a node deleted
  from ht2 is charged to ht1, and from then on `ht2.size` is too large (`drift`).
* `HMap.Exact` — `ht2.size` is right, hence `ht1.size` too.
* `hmHelpResizing_spec`, `hmLink_spec`, `hmInsert_spec`, `hmLookup_spec`, `hmDelete_spec` — one
  lemma for each operation: what a successful call does to the scan order of the two tables.
* `hmHelpResizing_total` and its consequences — with `Exact` no call fails.

The order in which a lookup meets the nodes is `HMap.order`: ht1's scan, then ht2's.  Restricted
to one hash code it is the two chains `hm_lookup` walks.
-/

set_option autoImplicit false

namespace RedisServer

open Buckets

/-- The nodes with hash value `h`. -/
def cls (h : UInt64) (n : HNode) : Bool := n.hcode == h

theorem cls_iff {h : UInt64} {n : HNode} : cls h n = true ↔ n.hcode = h := by simp [cls]

/-! ## One table -/

namespace HTab

def buckets (t : HTab) : List Chain := t.tab.getD []

/-- All linked nodes, in the order of `h_scan`. -/
def nodes (t : HTab) : List HNode := t.buckets.flatten

/-- A well-formed table, its `size` aside. -/
structure Ok (t : HTab) : Prop where
  length : t.tab.isSome → t.buckets.length = t.mask + 1
  pow : t.tab.isSome → ∃ k, t.mask + 1 = 2 ^ k
  placed : Placed (fun n : HNode => t.slot n.hcode) t.buckets
  null : t.tab = none → t.size = 0

theorem bucket_ok {t : HTab} {i : Nat} {c : Chain} :
    t.bucket i = .ok c ↔ t.buckets[i]? = some c := by
  unfold bucket buckets
  cases t.tab with
  | none => simp
  | some tab => cases h : tab[i]? <;> simp [h]

@[simp] theorem buckets_setBucket (t : HTab) (i : Nat) (c : Chain) :
    (t.setBucket i c).buckets = t.buckets.set i c := by
  unfold buckets setBucket
  cases t.tab <;> simp

@[simp] theorem setBucket_isSome (t : HTab) (i : Nat) (c : Chain) :
    (t.setBucket i c).tab.isSome = t.tab.isSome := by
  unfold setBucket; cases t.tab <;> rfl

theorem setBucket_none {t : HTab} {i : Nat} {c : Chain} :
    (t.setBucket i c).tab = none ↔ t.tab = none := by
  unfold setBucket; cases t.tab <;> simp

@[simp] theorem setBucket_mask (t : HTab) (i : Nat) (c : Chain) :
    (t.setBucket i c).mask = t.mask := rfl

@[simp] theorem setBucket_size (t : HTab) (i : Nat) (c : Chain) :
    (t.setBucket i c).size = t.size := rfl

theorem nodes_none {t : HTab} (h : t.tab = none) : t.nodes = [] := by
  simp [nodes, buckets, h]

/-- A table that counts nodes has buckets. -/
theorem Ok.isSome_of_size {t : HTab} (ok : t.Ok) (h : 0 < t.size) : t.tab.isSome := by
  apply Option.isSome_iff_ne_none.mpr
  intro hn
  have := ok.null hn
  omega

theorem Ok.slot_bucket {t : HTab} (ok : t.Ok) (ht : t.tab.isSome) (h : UInt64) :
    ∃ c, t.buckets[t.slot h]? = some c := by
  have hlen := ok.length ht
  have hle : t.slot h ≤ t.mask := Nat.and_le_right
  exact ⟨_, List.getElem?_eq_getElem (by omega)⟩

/-- The nodes of one hash value are those of its bucket, in chain order. -/
theorem Ok.filter_cls {t : HTab} (ok : t.Ok) {h : UInt64} {c : Chain} {q : HNode → Bool}
    (hq : ∀ n, q n = true → n.hcode = h) (hc : t.buckets[t.slot h]? = some c) :
    t.nodes.filter q = c.filter q :=
  ok.placed.filter_flatten (fun n hn => by rw [hq n hn]) hc

theorem Ok.setBucket {t : HTab} (ok : t.Ok) {i : Nat} {c : Chain}
    (hc : ∀ n ∈ c, t.slot n.hcode = i) : (t.setBucket i c).Ok where
  length h := by
    rw [setBucket_isSome] at h
    rw [buckets_setBucket, List.length_set]; exact ok.length h
  pow h := ok.pow (by rwa [setBucket_isSome] at h)
  placed := by rw [buckets_setBucket]; exact ok.placed.set hc
  null h := ok.null (setBucket_none.mp h)

theorem Ok.resize {t : HTab} (ok : t.Ok) {s : Nat} (h : t.tab.isSome) :
    ({ t with size := s } : HTab).Ok :=
  ⟨ok.length, ok.pow, ok.placed, fun hn => by rw [show t.tab = none from hn] at h; cases h⟩

end HTab

theorem hinit_pow {size k : Nat} (hs : size = 2 ^ k) :
    hinit size = .ok { tab := some (List.replicate size []), size := 0, mask := size - 1 } := by
  have hpos : 0 < size := hs ▸ Nat.two_pow_pos k
  have hand : size &&& (size - 1) = 0 := by
    subst hs; rw [Nat.and_two_pow_sub_one_eq_mod, Nat.mod_self]
  simp [hinit, hpos, hand]

theorem replicate_ok {size k : Nat} (hs : size = 2 ^ k) :
    ({ tab := some (List.replicate size []), size := 0, mask := size - 1 } : HTab).Ok where
  length _ := by
    have : 0 < size := hs ▸ Nat.two_pow_pos k
    simp [HTab.buckets]; omega
  pow _ := ⟨k, by have : 0 < size := hs ▸ Nat.two_pow_pos k; simp only; omega⟩
  placed := placed_replicate_nil size
  null h := by cases h

/-- `hinsert` puts the node in front of its class and leaves the other classes alone. -/
theorem hinsert_spec {t : HTab} (ok : t.Ok) (ht : t.tab.isSome) (n : HNode) :
    ∃ t', hinsert t n = .ok t' ∧ t'.Ok ∧ t'.tab.isSome ∧ t'.mask = t.mask ∧
      t'.size = t.size + 1 ∧ t'.nodes.Perm (n :: t.nodes) ∧
      ∀ h, t'.nodes.filter (cls h) = [n].filter (cls h) ++ t.nodes.filter (cls h) := by
  obtain ⟨c, hc⟩ := ok.slot_bucket ht n.hcode
  have hplace : ∀ x ∈ n :: c, t.slot x.hcode = t.slot n.hcode := by
    intro x hx
    rcases List.mem_cons.mp hx with rfl | hx
    · rfl
    · exact ok.placed _ _ hc x hx
  refine ⟨{ t.setBucket (t.slot n.hcode) (n :: c) with size := t.size + 1 }, ?_,
    (ok.setBucket hplace).resize (by simpa using ht), by simpa using ht, rfl, rfl, ?_, ?_⟩
  · simp [hinsert, HTab.bucket_ok.mpr hc]
  · show (t.setBucket _ _).buckets.flatten.Perm _
    rw [HTab.buckets_setBucket]
    exact flatten_set_cons hc
  · intro h
    show (t.setBucket _ _).buckets.flatten.filter _ = _
    rw [HTab.buckets_setBucket]
    by_cases hn : n.hcode = h
    · have hq : ∀ x, cls h x = true → t.slot x.hcode = t.slot n.hcode := by
        intro x hx
        rw [cls_iff.mp hx, hn]
      rw [ok.placed.filter_set hq hc, ok.filter_cls (fun x hx => (cls_iff.mp hx).trans hn.symm) hc]
      simp [cls_iff.mpr hn]
    · have hcls : cls h n = false := by simpa [cls] using hn
      rw [filter_set_of_ne hc (by simp [hcls])]
      simp [hcls, HTab.nodes]

/-! ## The chain walk -/

/-- The test a lookup of hash value `h` and comparator `p` applies to a node. -/
def hits (h : UInt64) (p : HNode → Bool) (n : HNode) : Bool := cls h n && p n

theorem hits_cls {h : UInt64} {p : HNode → Bool} {n : HNode} (hn : hits h p n = true) :
    n.hcode = h := by
  simp only [hits, Bool.and_eq_true] at hn
  exact cls_iff.mp hn.1

theorem chainFind_eq {h : UInt64} {eq : HNode → Res Bool} {p : HNode → Bool} :
    ∀ {c : Chain}, (∀ n ∈ c, n.hcode = h → eq n = .ok (p n)) →
      chainFind h eq c = .ok (c.findIdx? (hits h p))
  | [], _ => rfl
  | n :: c, he => by
    have ih := chainFind_eq (c := c) fun x hx => he x (List.mem_cons_of_mem _ hx)
    rw [chainFind, List.findIdx?_cons, ih]
    by_cases hn : n.hcode = h
    · rw [if_pos hn, he n List.mem_cons_self hn]
      cases hp : p n <;> simp [hits, cls_iff.mpr hn, hp]
    · have : cls h n = false := by simpa [cls] using hn
      rw [if_neg hn]
      simp [hits, this]

theorem findIdx?_split {ch : Chain} {d : Nat} {q : HNode → Bool} (h : ch.findIdx? q = some d) :
    ∃ n, ch[d]? = some n ∧ ch.find? q = some n := by
  obtain ⟨hd, hq, hlt⟩ := List.findIdx?_eq_some_iff_getElem.mp h
  refine ⟨ch.get ⟨d, hd⟩, List.getElem?_eq_getElem hd, ?_⟩
  rw [List.find?_eq_some_iff_getElem]
  exact ⟨hq, d, hd, rfl, fun j hj => by simpa using hlt j hj⟩

/-- What `hlookup` answers: the first hit of the table, or none. -/
theorem hlookup_spec {t : HTab} (ok : t.Ok) {h : UInt64} {eq : HNode → Res Bool}
    {p : HNode → Bool} (he : ∀ n ∈ t.nodes, n.hcode = h → eq n = .ok (p n)) :
    (hlookup t h eq = .ok none ∧ t.nodes.find? (hits h p) = none) ∨
    (∃ pos d ch n, hlookup t h eq = .ok (some ⟨pos, d⟩) ∧ t.buckets[pos]? = some ch ∧
      ch[d]? = some n ∧ t.nodes.find? (hits h p) = some n) := by
  cases ht : t.tab with
  | none => exact .inl ⟨by simp [hlookup, ht], by rw [HTab.nodes_none ht]; rfl⟩
  | some tab =>
    have hs : t.tab.isSome := by simp [ht]
    obtain ⟨ch, hc⟩ := ok.slot_bucket hs h
    have hfind : t.nodes.find? (hits h p) = ch.find? (hits h p) := by
      rw [← List.head?_filter, ← List.head?_filter, ok.filter_cls (fun n hn => hits_cls hn) hc]
    have hwalk : chainFind h eq ch = .ok (ch.findIdx? (hits h p)) :=
      chainFind_eq fun n hn => he n (mem_flatten hc hn)
    have hl : hlookup t h eq = .ok ((ch.findIdx? (hits h p)).map (Link.mk (t.slot h))) := by
      simp [hlookup, ht, HTab.bucket_ok.mpr hc, hwalk]
    cases hi : ch.findIdx? (hits h p) with
    | none =>
      refine .inl ⟨by rw [hl, hi]; rfl, ?_⟩
      rw [hfind]
      exact List.find?_eq_none.mpr fun n hn => by
        simpa using (List.findIdx?_eq_none_iff.mp hi) n hn
    | some d =>
      obtain ⟨n, hn, hf⟩ := findIdx?_split hi
      exact .inr ⟨t.slot h, d, ch, n, by rw [hl, hi]; rfl, hc, hn, hfind.trans hf⟩

theorem filter_bne_of_notMem {l : List HNode} {n : HNode} (h : n ∉ l) : l.filter (· != n) = l :=
  List.filter_eq_self.mpr fun a ha => by simp; rintro rfl; exact h ha

theorem length_filter_bne {l : List HNode} {n : HNode} (hnd : l.Nodup) (h : n ∈ l) :
    (l.filter (· != n)).length + 1 = l.length := by
  rw [← hnd.erase_eq_filter, List.length_erase_of_mem h]
  have := List.length_pos_of_mem h
  omega

/-- A node that a link leads to can be unlinked. -/
theorem unlink_of {t : HTab} (ok : t.Ok) {pos d : Nat} {ch : Chain} {n : HNode}
    (hc : t.buckets[pos]? = some ch) (hn : ch[d]? = some n) :
    ∃ t', t.unlink ⟨pos, d⟩ = .ok (n, t') ∧ t'.Ok ∧ t'.tab.isSome = t.tab.isSome ∧
      t'.mask = t.mask ∧ t'.size = t.size ∧ t'.buckets = t.buckets.set pos (ch.eraseIdx d) := by
  refine ⟨t.setBucket pos (ch.eraseIdx d), by simp [HTab.unlink, HTab.bucket_ok.mpr hc, hn],
    ok.setBucket ?_, HTab.setBucket_isSome _ _ _, rfl, rfl, HTab.buckets_setBucket _ _ _⟩
  intro x hx
  exact ok.placed _ _ hc x (List.mem_of_mem_eraseIdx hx)

/-- Unlinking the node behind a link takes exactly this node out of the scan. -/
theorem unlink_spec {t : HTab} (ok : t.Ok) {pos d : Nat} {ch : Chain} {n : HNode}
    (hc : t.buckets[pos]? = some ch) (hn : ch[d]? = some n) (hnd : t.nodes.Nodup) :
    ∃ t', t.unlink ⟨pos, d⟩ = .ok (n, t') ∧ t'.Ok ∧ t'.tab.isSome = t.tab.isSome ∧
      t'.mask = t.mask ∧ t'.size = t.size ∧ t'.nodes = t.nodes.filter (· != n) ∧
      t'.buckets = t.buckets.set pos (ch.eraseIdx d) ∧ n ∈ t.nodes := by
  have hmem : n ∈ t.nodes := mem_flatten hc (List.mem_of_getElem? hn)
  obtain ⟨t', hun, ok', hsome, hmask, hsize, hbuckets⟩ := unlink_of ok hc hn
  refine ⟨t', hun, ok', hsome, hmask, hsize, ?_, hbuckets, hmem⟩
  have hparts := hnd
  unfold HTab.nodes at hparts ⊢
  rw [flatten_split hc, List.nodup_append', List.nodup_append'] at hparts
  obtain ⟨-, ⟨hcnd, -, hdc⟩, hdt⟩ := hparts
  have hnc : n ∈ ch := List.mem_of_getElem? hn
  have herase : ch.eraseIdx d = ch.filter (· != n) := by
    obtain ⟨hd, rfl⟩ := List.getElem?_eq_some_iff.mp hn
    rw [← hcnd.erase_getElem, hcnd.erase_eq_filter]
  have hbefore : n ∉ (t.buckets.take pos).flatten := fun h => hdt h (List.mem_append_left _ hnc)
  have hbehind : n ∉ (t.buckets.drop (pos + 1)).flatten := fun h => hdc hnc h
  rw [hbuckets, flatten_set hc, flatten_split hc, List.filter_append, List.filter_append, herase,
    filter_bne_of_notMem hbefore, filter_bne_of_notMem hbehind]

/-! ## Two tables -/

namespace HMap

/-- The order in which a lookup meets the nodes of one hash value. -/
def order (m : HMap) : List HNode := m.ht1.nodes ++ m.ht2.nodes

/-- The invariant of every call, sizes of the single tables aside. -/
structure Shape (m : HMap) : Prop where
  ok1 : m.ht1.Ok
  ok2 : m.ht2.Ok
  older : m.ht1.tab = none → m.ht2.tab = none
  cleared : ClearedBelow m.ht2.buckets m.resizingPos
  total : m.ht1.size + m.ht2.size = m.ht1.nodes.length + m.ht2.nodes.length
  drift : m.ht2.nodes.length ≤ m.ht2.size
  nodup : (m.order.map HNode.ptr).Nodup

/-- `ht2.size` counts ht2's nodes. -/
def Exact (m : HMap) : Prop := m.ht2.size = m.ht2.nodes.length

theorem Shape.empty : Shape {} where
  ok1 := ⟨by simp, by simp, by intro i c h; simp [HTab.buckets] at h, by simp⟩
  ok2 := ⟨by simp, by simp, by intro i c h; simp [HTab.buckets] at h, by simp⟩
  older _ := rfl
  cleared := clearedBelow_zero
  total := rfl
  drift := Nat.le_refl _
  nodup := List.nodup_nil

theorem exact_empty : Exact {} := rfl

theorem Shape.nodup_order {m : HMap} (hs : m.Shape) : m.order.Nodup := hs.nodup.of_map _

theorem Shape.some1 {m : HMap} (hs : m.Shape) (h : m.ht2.tab.isSome) : m.ht1.tab.isSome := by
  rw [Option.isSome_iff_ne_none] at h ⊢
  exact fun hn => h (hs.older hn)

/-- No bucket of ht2 is in range while it is NULL. -/
theorem some_of_bucket {t : HTab} {i : Nat} {c : Chain} (h : t.buckets[i]? = some c) :
    t.tab.isSome := by
  cases ht : t.tab with
  | none => simp [HTab.buckets, ht] at h
  | some tab => rfl

/-- From `m` to `m'` the first `k` nodes of ht2's scan went to the front of ht1's chains. -/
structure Moved (k : Nat) (m m' : HMap) : Prop where
  nodes2 : m'.ht2.nodes = m.ht2.nodes.drop k
  cls1 : ∀ h, m'.ht1.nodes.filter (cls h) =
    ((m.ht2.nodes.take k).filter (cls h)).reverse ++ m.ht1.nodes.filter (cls h)
  perm : m'.order.Perm m.order
  size1 : m'.ht1.size = m.ht1.size + k
  size2 : m'.ht2.size + k = m.ht2.size
  le : k ≤ m.ht2.nodes.length
  mask1 : m'.ht1.mask = m.ht1.mask
  some1 : m'.ht1.tab.isSome = m.ht1.tab.isSome

theorem Moved.refl {m m' : HMap} (h1 : m'.ht1 = m.ht1) (h2 : m'.ht2 = m.ht2) : Moved 0 m m' where
  nodes2 := by rw [h2]; rfl
  cls1 h := by rw [h1]; rfl
  perm := by unfold order; rw [h1, h2]
  size1 := by rw [h1]; rfl
  size2 := by rw [h2]; rfl
  le := Nat.zero_le _
  mask1 := by rw [h1]
  some1 := by rw [h1]

theorem Moved.trans {j k : Nat} {m m₁ m₂ : HMap} (h : Moved j m m₁) (h' : Moved k m₁ m₂) :
    Moved (j + k) m m₂ where
  nodes2 := by rw [h'.nodes2, h.nodes2, List.drop_drop]
  cls1 x := by
    rw [h'.cls1, h.cls1, h.nodes2, List.take_add, List.filter_append, List.reverse_append,
      List.append_assoc]
  perm := h'.perm.trans h.perm
  size1 := by rw [h'.size1, h.size1, Nat.add_assoc]
  size2 := by have := h.size2; have := h'.size2; omega
  le := by
    have := h.le; have := h'.le
    rw [h.nodes2, List.length_drop] at this
    omega
  mask1 := h'.mask1.trans h.mask1
  some1 := h'.some1.trans h.some1

theorem Moved.length1 {k : Nat} {m m' : HMap} (h : Moved k m m') :
    m'.ht1.nodes.length = m.ht1.nodes.length + k := by
  have hp := h.perm.length_eq
  have hl := h.le
  simp only [order, List.length_append, h.nodes2, List.length_drop] at hp
  omega

theorem Moved.mem {k : Nat} {m m' : HMap} (h : Moved k m m') {n : HNode} :
    n ∈ m'.order ↔ n ∈ m.order := h.perm.mem_iff

/-- With exact sizes a migration leaves exact sizes. -/
theorem Moved.exact {k : Nat} {m m' : HMap} (h : Moved k m m') : m'.Exact ↔ m.Exact := by
  have := h.size2
  have := h.le
  unfold Exact
  rw [h.nodes2, List.length_drop]
  omega

end HMap

/-! ## Migration -/

theorem sizeDec_pos {n : Nat} (h : 0 < n) : sizeDec n + 1 = n := by
  unfold sizeDec; split <;> omega

/-- One round of the loop that finds a node under the cursor. -/
theorem move_spec {m : HMap} (hs : m.Shape) {a : HNode} {c : Chain}
    (hb : m.ht2.buckets[m.resizingPos]? = some (a :: c)) :
    ∃ ht1 ht2, hDetach m.ht2 ⟨m.resizingPos, 0⟩ = .ok (a, ht2) ∧ hinsert m.ht1 a = .ok ht1 ∧
      HMap.Moved 1 m { m with ht1 := ht1, ht2 := ht2 } ∧
      HMap.Shape { m with ht1 := ht1, ht2 := ht2 } ∧
      ht2.buckets.length = m.ht2.buckets.length := by
  have hs2 := HMap.some_of_bucket hb
  have hnodes : m.ht2.nodes = a :: (m.ht2.buckets.set m.resizingPos c).flatten :=
    hs.cleared.flatten_head hb
  have hpos : 0 < m.ht2.size := by
    have := hs.drift; rw [hnodes, List.length_cons] at this; omega
  obtain ⟨ht1, hins, ok1, hsome, hmask, hsize, hperm, hcls⟩ :=
    hinsert_spec hs.ok1 (hs.some1 hs2) a
  obtain ⟨t2, hun, ok2, hsome2, hmask2, hsize2, -, hbuck, -⟩ :=
    unlink_spec (d := 0) hs.ok2 hb rfl (List.nodup_append.mp hs.nodup_order).2.1
  rw [List.eraseIdx_cons_zero] at hbuck
  have hnodes2 : t2.charge.nodes = m.ht2.nodes.drop 1 := by
    rw [hnodes]
    show t2.buckets.flatten = _
    rw [hbuck]; rfl
  have hdec : sizeDec m.ht2.size + 1 = m.ht2.size := sizeDec_pos hpos
  have hmoved : HMap.Moved 1 m { m with ht1 := ht1, ht2 := t2.charge } :=
    { nodes2 := hnodes2
      cls1 := by
        intro h
        rw [hcls, hnodes]
        simp only [List.take_succ_cons, List.take_zero, List.filter_cons, List.filter_nil]
        split <;> rfl
      perm := by
        unfold HMap.order
        rw [hnodes2, hnodes]
        exact (hperm.append_right _).trans List.perm_middle.symm
      size1 := hsize
      size2 := by show sizeDec t2.size + 1 = _; rw [hsize2]; exact hdec
      le := by rw [hnodes]; simp
      mask1 := hmask
      some1 := by rw [hsome, hs.some1 hs2] }
  refine ⟨ht1, t2.charge, by simp [hDetach, hun], hins, hmoved, ?_, ?_⟩
  · have hl1 := hmoved.length1
    have htot := hs.total
    have hle := hs.drift
    have hlen2 : t2.charge.nodes.length + 1 = m.ht2.nodes.length := by
      rw [hnodes2, hnodes]; simp
    have hsz2 : t2.charge.size + 1 = m.ht2.size := hmoved.size2
    exact
      { ok1 := ok1
        ok2 := ok2.resize (by rw [hsome2, hs2])
        older := fun hn => by rw [show ht1.tab = none from hn] at hsome; cases hsome
        cleared := by
          show ClearedBelow t2.buckets m.resizingPos
          rw [hbuck]; exact hs.cleared.set fun h => absurd h (Nat.lt_irrefl _)
        total := by simp only at hl1 ⊢; omega
        drift := by simp only; omega
        nodup := (hmoved.perm.map _).nodup_iff.mpr hs.nodup }
  · show t2.buckets.length = _
    rw [hbuck, List.length_set]

theorem shape_cursor {m : HMap} (hs : m.Shape) (hb : m.ht2.buckets[m.resizingPos]? = some []) :
    HMap.Shape { m with resizingPos := m.resizingPos + 1 } :=
  { hs with cleared := hs.cleared.succ hb }

/-- **The migration loop moves a prefix of ht2's scan** and stops with its work quota used up or
with `ht2.size = 0`. -/
theorem hmHelpLoop_spec : ∀ (fuel nwork : Nat) (m m' : HMap), m.Shape → nwork ≤ resizingWork →
    hmHelpLoop fuel nwork m = .ok m' →
    ∃ k, HMap.Moved k m m' ∧ m'.Shape ∧ nwork + k ≤ resizingWork ∧
      (nwork + k = resizingWork ∨ m'.ht2.size = 0)
  | 0, _, _, _, _, _, h => by cases h
  | fuel + 1, nwork, m, m', hs, hw, h => by
    rw [hmHelpLoop] at h
    split at h
    · rename_i hgo
      obtain ⟨c, hc, h⟩ := Runs.bind_ok.mp h
      rw [HTab.bucket_ok] at hc
      cases c with
      | nil =>
        obtain ⟨k, hm, hs', hk, hstop⟩ :=
          hmHelpLoop_spec fuel nwork _ m' (shape_cursor hs hc) hw h
        exact ⟨k, ⟨hm.nodes2, hm.cls1, hm.perm, hm.size1, hm.size2, hm.le, hm.mask1, hm.some1⟩,
          hs', hk, hstop⟩
      | cons a c =>
        obtain ⟨ht1, ht2, hdet, hins, hm1, hs1, -⟩ := move_spec hs hc
        simp only [hdet, hins, Runs.ok_bind] at h
        obtain ⟨k, hm, hs', hk, hstop⟩ := hmHelpLoop_spec fuel (nwork + 1) _ m' hs1 hgo.1 h
        exact ⟨1 + k, hm1.trans hm, hs', by omega, by omega⟩
    · rename_i hstop
      cases h
      exact ⟨0, .refl rfl rfl, hs, hw, by omega⟩

/-- While ht2 holds a node, the cursor is at a bucket of ht2. -/
theorem cursor_in_range {m : HMap} (hs : m.Shape) (hne : m.ht2.nodes ≠ []) :
    ∃ c, m.ht2.buckets[m.resizingPos]? = some c := by
  cases hb : m.ht2.buckets[m.resizingPos]? with
  | none => exact absurd (hs.cleared.flatten_eq_nil hb) hne
  | some c => exact ⟨c, rfl⟩

/-- **With exact sizes the loop never leaves the bucket array.** -/
theorem hmHelpLoop_total : ∀ (fuel nwork : Nat) (m : HMap), m.Shape → m.Exact →
    (resizingWork - nwork) + (m.ht2.buckets.length - m.resizingPos) < fuel →
    ∃ m', hmHelpLoop fuel nwork m = .ok m'
  | 0, _, _, _, _, h => absurd h (Nat.not_lt_zero _)
  | fuel + 1, nwork, m, hs, hx, hf => by
    rw [hmHelpLoop]
    split
    · rename_i hgo
      have hne : m.ht2.nodes ≠ [] := by
        intro hn
        unfold HMap.Exact at hx; rw [hn] at hx; simp at hx; omega
      obtain ⟨c, hc⟩ := cursor_in_range hs hne
      have hlt : m.resizingPos < m.ht2.buckets.length := (List.getElem?_eq_some_iff.mp hc).1
      simp only [HTab.bucket_ok.mpr hc, Runs.ok_bind]
      cases c with
      | nil => exact hmHelpLoop_total fuel nwork _ (shape_cursor hs hc) hx (by simp only; omega)
      | cons a c =>
        obtain ⟨ht1, ht2, hdet, hins, hm, hs', hlen⟩ := move_spec hs hc
        simp only [hdet, hins, Runs.ok_bind]
        exact hmHelpLoop_total fuel (nwork + 1) _ hs' (hm.exact.mpr hx)
          (by simp only [hlen]; omega)
    · exact ⟨m, rfl⟩

theorem HTab.bucket_error {t : HTab} {i : Nat} {e : Fault} (h : t.bucket i = .error e) :
    e ≠ .outOfFuel := by
  unfold HTab.bucket at h
  split at h
  · cases h; simp
  · split at h <;> cases h
    simp

/-- The loop's fuel is never used up, whatever the map. -/
theorem helpLoop_fuel : ∀ (fuel nwork : Nat) (m : HMap),
    (resizingWork - nwork) + (m.ht2.buckets.length - m.resizingPos) < fuel →
    hmHelpLoop fuel nwork m ≠ .error .outOfFuel
  | 0, _, _, h => absurd h (Nat.not_lt_zero _)
  | fuel + 1, nwork, m, hf => by
    rw [hmHelpLoop]
    split
    · rename_i hgo
      cases hb : m.ht2.bucket m.resizingPos with
      | error e => simpa using HTab.bucket_error hb
      | ok c =>
        have hlt : m.resizingPos < m.ht2.buckets.length :=
          (List.getElem?_eq_some_iff.mp (HTab.bucket_ok.mp hb)).1
        cases c with
        | nil => exact helpLoop_fuel fuel nwork _ (by simp only; omega)
        | cons a c =>
          simp only [hDetach, HTab.unlink, hb, hinsert, Runs.ok_bind, List.getElem?_cons_zero,
            List.eraseIdx_cons_zero, Runs.pure_ok]
          cases hi : m.ht1.bucket (m.ht1.slot a.hcode) with
          | error e => simpa using HTab.bucket_error hi
          | ok next =>
            refine helpLoop_fuel fuel (nwork + 1) _ ?_
            show resizingWork - (nwork + 1) +
              ((m.ht2.setBucket m.resizingPos c).buckets.length - m.resizingPos) < fuel
            rw [HTab.buckets_setBucket, List.length_set]
            omega
    · simp

/-- From `m` to `m'` one call of `hm_help_resizing` moved `k` nodes. -/
structure HMap.Helped (k : Nat) (m m' : HMap) : Prop extends HMap.Moved k m m' where
  shape : m'.Shape
  quota : k ≤ resizingWork
  work : k = resizingWork ∨ m'.ht2.tab = none
  freed : m'.ht2.tab.isSome → 0 < m'.ht2.size

theorem hmHelpResizing_spec {m m' : HMap} (hs : m.Shape) (h : hmHelpResizing m = .ok m') :
    ∃ k, HMap.Helped k m m' := by
  obtain ⟨m₁, hloop, h⟩ := Runs.bind_ok.mp h
  obtain ⟨k, hm, hs₁, hk, hstop⟩ :=
    hmHelpLoop_spec _ 0 m m₁ hs (Nat.zero_le _) hloop
  split at h
  · rename_i hfree
    cases h
    have hnil : m₁.ht2.nodes = [] :=
      List.eq_nil_of_length_eq_zero (Nat.le_zero.mp (hfree.1 ▸ hs₁.drift))
    have hnil' : ({} : HTab).nodes = [] := rfl
    have hmoved : HMap.Moved k m { m₁ with ht2 := {} } :=
      { hm with
        nodes2 := by rw [← hm.nodes2, hnil]; rfl
        perm := by
          have := hm.perm
          unfold HMap.order at this ⊢
          rwa [hnil] at this
        size2 := by rw [← hm.size2, hfree.1] }
    refine ⟨k, { hmoved with
      shape :=
        { ok1 := hs₁.ok1
          ok2 := HMap.Shape.empty.ok2
          older := fun _ => rfl
          cleared := by intro i c _ hc; simp [HTab.buckets] at hc
          total := by
            have := hs₁.total
            rw [hnil, hfree.1] at this
            simpa [hnil'] using this
          drift := Nat.le_refl _
          nodup := (hmoved.perm.map _).nodup_iff.mpr hs.nodup }
      quota := by omega
      work := .inr rfl
      freed := fun hn => by cases hn }⟩
  · rename_i hkeep
    cases h
    have hnone : m'.ht2.size = 0 → m'.ht2.tab = none := by
      intro hz
      by_contra hn
      exact hkeep ⟨hz, Option.isSome_iff_ne_none.mpr hn⟩
    refine ⟨k, { hm with shape := hs₁, quota := by omega, work := ?_, freed := fun hsome => ?_ }⟩
    · rcases hstop with hq | hz
      · exact .inl (by omega)
      · exact .inr (hnone hz)
    · apply Nat.pos_of_ne_zero
      intro hz
      rw [hnone hz] at hsome; cases hsome

theorem hmHelpResizing_total {m : HMap} (hs : m.Shape) (hx : m.Exact) :
    ∃ m' k, hmHelpResizing m = .ok m' ∧ HMap.Helped k m m' ∧ m'.Exact := by
  obtain ⟨m₁, h₁⟩ := hmHelpLoop_total (resizingWork + m.ht2.buckets.length + 1) 0 m hs hx (by omega)
  have hok : ∃ m', hmHelpResizing m = .ok m' := by
    simp only [hmHelpResizing, show m.ht2.tab.getD [] = m.ht2.buckets from rfl, h₁, Runs.ok_bind]
    split <;> exact ⟨_, rfl⟩
  obtain ⟨m', hm'⟩ := hok
  obtain ⟨k, hk⟩ := hmHelpResizing_spec hs hm'
  exact ⟨m', k, hm', hk, hk.exact.mpr hx⟩

/-! ## Insertion -/

/-- From `m` to `m'` the node `n` was linked in front of everything and possibly a resize started. -/
structure HMap.Linked (n : HNode) (m m' : HMap) : Prop where
  shape : m'.Shape
  perm : m'.order.Perm (n :: m.order)
  cls : ∀ h, m'.order.filter (cls h) = [n].filter (cls h) ++ m.order.filter (cls h)
  exact : m.Exact → m'.Exact
  some1 : m'.ht1.tab.isSome

theorem hmStartResizing_spec {m : HMap} (hs : m.Shape) (h1 : m.ht1.tab.isSome)
    (h2 : m.ht2.tab = none) :
    ∃ m', hmStartResizing m = .ok m' ∧ m'.Shape ∧ m'.order = m.order ∧ m'.Exact ∧
      m'.ht1.tab.isSome := by
  obtain ⟨e, he⟩ := hs.ok1.pow h1
  have hsize : (m.ht1.mask + 1) * 2 = 2 ^ (e + 1) := by rw [he, Nat.pow_succ]
  have hn2 : m.ht2.nodes = [] := HTab.nodes_none h2
  have hempty : ∀ s k, HTab.nodes { tab := some (List.replicate s []), size := 0, mask := k } = [] :=
    fun s k => flatten_replicate_nil s
  have htot := hs.total
  rw [hn2, hs.ok2.null h2] at htot
  refine ⟨_, by simp only [hmStartResizing, h2, hinit_pow hsize]; rfl, ?_, ?_, ?_, rfl⟩
  · exact
      { ok1 := replicate_ok hsize
        ok2 := hs.ok1
        older := fun hn => by cases hn
        cleared := clearedBelow_zero
        total := by simp only [hempty]; simpa using htot
        drift := by simp only; simp at htot; omega
        nodup := by
          have := hs.nodup
          unfold HMap.order at this ⊢
          rw [hn2] at this
          simpa [hempty] using this }
  · unfold HMap.order; simp [hempty, hn2]
  · unfold HMap.Exact; simp at htot ⊢; omega

theorem hinsert_map_spec {m : HMap} (hs : m.Shape) (h1 : m.ht1.tab.isSome) {n : HNode}
    (hn : n.ptr ∉ m.order.map HNode.ptr) :
    ∃ ht1, hinsert m.ht1 n = .ok ht1 ∧ HMap.Linked n m { m with ht1 := ht1 } := by
  obtain ⟨ht1, hins, ok1, hsome, -, hsize, hperm, hcls⟩ := hinsert_spec hs.ok1 h1 n
  have hp : HMap.order { m with ht1 := ht1 } |>.Perm (n :: m.order) := hperm.append_right _
  have hlen := hperm.length_eq
  have htot := hs.total
  refine ⟨ht1, hins, ⟨?_, hp, ?_, fun hx => hx, hsome⟩⟩
  · exact
      { ok1 := ok1
        ok2 := hs.ok2
        older := fun h => by rw [show ht1.tab = none from h] at hsome; cases hsome
        cleared := hs.cleared
        total := by simp at hlen ⊢; omega
        drift := hs.drift
        nodup := (hp.map _).nodup_iff.mpr (List.nodup_cons.mpr ⟨hn, hs.nodup⟩) }
  · intro h
    unfold HMap.order
    rw [List.filter_append, hcls, List.filter_append, List.append_assoc]

/-- **Linking always succeeds**, and puts the node in front of its class. -/
theorem hmLink_spec {m : HMap} (hs : m.Shape) {n : HNode} (hn : n.ptr ∉ m.order.map HNode.ptr) :
    ∃ m', hmLink m n = .ok m' ∧ HMap.Linked n m m' := by
  -- after the optional hinit(&hmap->ht1, 4)
  obtain ⟨m₀, hinit, hs₀, hsome₀, hord, hx₀, h2₀⟩ : ∃ m₀ : HMap,
      m.ht1.orInit = .ok m₀.ht1 ∧ m₀.Shape ∧
      m₀.ht1.tab.isSome ∧ m₀.order = m.order ∧ (m.Exact → m₀.Exact) ∧
      m₀ = { m with ht1 := m₀.ht1 } := by
    by_cases h1 : m.ht1.tab = none
    · have hnil : m.ht1.nodes = [] := HTab.nodes_none h1
      have hemp : HTab.nodes { tab := some (List.replicate 4 []), size := 0, mask := 4 - 1 } = [] :=
        flatten_replicate_nil 4
      have htot := hs.total
      rw [hnil, hs.ok1.null h1] at htot
      refine ⟨{ m with ht1 := { tab := some (List.replicate 4 []), size := 0, mask := 4 - 1 } }, ?_,
        ?_, rfl, ?_, id, rfl⟩
      · rw [HTab.orInit, h1]; exact hinit_pow (k := 2) rfl
      · exact
          { ok1 := replicate_ok (k := 2) rfl
            ok2 := hs.ok2
            older := fun h => by cases h
            cleared := hs.cleared
            total := by simp only [hemp]; simpa using htot
            drift := hs.drift
            nodup := by
              have := hs.nodup
              unfold HMap.order at this ⊢
              rwa [hnil] at this }
      · unfold HMap.order; rw [hnil]; rfl
    · refine ⟨m, ?_, hs, Option.isSome_iff_ne_none.mpr h1, rfl, id, rfl⟩
      simp [HTab.orInit, h1]
  obtain ⟨ht1, hins, hl⟩ := hinsert_map_spec hs₀ hsome₀ (hord ▸ hn)
  have hl' : HMap.Linked n m { m with ht1 := ht1 } := by
    have hm : ({ m₀ with ht1 := ht1 } : HMap) = { m with ht1 := ht1 } := by rw [h2₀]
    rw [hm] at hl
    exact ⟨hl.shape, hord ▸ hl.perm, fun h => by rw [hl.cls, hord], fun hx => hl.exact (hx₀ hx),
      hl.some1⟩
  unfold hmLink
  simp only [hinit, hins, Runs.ok_bind]
  split
  · rename_i hstart
    obtain ⟨m', hm', hs', hord', hx', hsome'⟩ :=
      hmStartResizing_spec hl'.shape hl'.some1 (Option.isNone_iff_eq_none.mp hstart.1)
    exact ⟨m', hm', ⟨hs', hord' ▸ hl'.perm, fun h => by rw [hord']; exact hl'.cls h,
      fun _ => hx', hsome'⟩⟩
  · exact ⟨_, rfl, hl'⟩

theorem hmInsert_spec {m m' : HMap} (hs : m.Shape) {n : HNode}
    (hn : n.ptr ∉ m.order.map HNode.ptr) (h : hmInsert m n = .ok m') :
    ∃ m₁ k, hmLink m n = .ok m₁ ∧ HMap.Linked n m m₁ ∧ HMap.Helped k m₁ m' := by
  obtain ⟨m₁, h₁, h⟩ := Runs.bind_ok.mp h
  obtain ⟨m₁', h₁', hl⟩ := hmLink_spec hs hn
  rw [h₁] at h₁'; cases h₁'
  obtain ⟨k, hk⟩ := hmHelpResizing_spec hl.shape h
  exact ⟨m₁, k, h₁, hl, hk⟩

theorem hmInsert_total {m : HMap} (hs : m.Shape) (hx : m.Exact) {n : HNode}
    (hn : n.ptr ∉ m.order.map HNode.ptr) : ∃ m', hmInsert m n = .ok m' ∧ m'.Shape ∧ m'.Exact := by
  obtain ⟨m₁, h₁, hl⟩ := hmLink_spec hs hn
  obtain ⟨m', k, h', hk, hx'⟩ := hmHelpResizing_total hl.shape (hl.exact hx)
  exact ⟨m', by simp [hmInsert, h₁, h'], hk.shape, hx'⟩

/-! ## Lookup and deletion -/

/-- The node `hm_lookup` and `hm_delete` find in `m` once they have helped the resize. -/
def HMap.found (m : HMap) (h : UInt64) (p : HNode → Bool) : Option HNode :=
  m.order.find? (hits h p)

theorem hmLookup_spec {m m' : HMap} (hs : m.Shape) {h : UInt64} {eq : HNode → Res Bool}
    {p : HNode → Bool} (he : ∀ n ∈ m.order, n.hcode = h → eq n = .ok (p n)) {r : Option HNode}
    (hl : hmLookup m h eq = .ok (m', r)) :
    hmHelpResizing m = .ok m' ∧ (∃ k, HMap.Helped k m m') ∧ r = m'.found h p := by
  obtain ⟨m₁, h₁, hl⟩ := Runs.bind_ok.mp hl
  obtain ⟨k, hk⟩ := hmHelpResizing_spec hs h₁
  have he₁ : ∀ n ∈ m₁.order, n.hcode = h → eq n = .ok (p n) := fun n hn => he n (hk.mem.mp hn)
  have hnd := List.nodup_append.mp hk.shape.nodup_order
  rcases hlookup_spec hk.shape.ok1 (fun n hn => he₁ n (List.mem_append_left _ hn)) with
    ⟨hnone, hf1⟩ | ⟨pos, d, ch, n, hsome, hch, hn, hf1⟩
  · rcases hlookup_spec hk.shape.ok2 (fun n hn => he₁ n (List.mem_append_right _ hn)) with
      ⟨hnone2, hf2⟩ | ⟨pos, d, ch, n, hsome2, hch, hn, hf2⟩
    · simp only [hnone, hnone2, Runs.ok_bind, Runs.pure_ok] at hl
      cases hl
      exact ⟨h₁, ⟨k, hk⟩, by simp [HMap.found, HMap.order, List.find?_append, hf1, hf2]⟩
    · obtain ⟨t', hun, -⟩ := unlink_spec hk.shape.ok2 hch hn hnd.2.1
      simp only [hnone, hsome2, HTab.at, hun, Runs.ok_bind, Runs.pure_ok] at hl
      cases hl
      exact ⟨h₁, ⟨k, hk⟩, by simp [HMap.found, HMap.order, List.find?_append, hf1, hf2]⟩
  · obtain ⟨t', hun, -⟩ := unlink_spec hk.shape.ok1 hch hn hnd.1
    simp only [hsome, HTab.at, hun, Runs.ok_bind, Runs.pure_ok] at hl
    cases hl
    exact ⟨h₁, ⟨k, hk⟩, by simp [HMap.found, HMap.order, List.find?_append, hf1]⟩

/-- Once the help has succeeded, so does the lookup. -/
theorem hmLookup_of_help {m m₁ : HMap} (hs : m.Shape) (h₁ : hmHelpResizing m = .ok m₁)
    {h : UInt64} {eq : HNode → Res Bool} {p : HNode → Bool}
    (he : ∀ n ∈ m.order, n.hcode = h → eq n = .ok (p n)) :
    ∃ r, hmLookup m h eq = .ok (m₁, r) := by
  obtain ⟨k, hk⟩ := hmHelpResizing_spec hs h₁
  have he₁ : ∀ n ∈ m₁.order, n.hcode = h → eq n = .ok (p n) := fun n hn => he n (hk.mem.mp hn)
  have hnd := List.nodup_append.mp hk.shape.nodup_order
  unfold hmLookup
  simp only [h₁, Runs.ok_bind]
  rcases hlookup_spec hk.shape.ok1 (fun n hn => he₁ n (List.mem_append_left _ hn)) with
    ⟨hnone, -⟩ | ⟨pos, d, ch, n, hsome, hch, hn, -⟩
  · rcases hlookup_spec hk.shape.ok2 (fun n hn => he₁ n (List.mem_append_right _ hn)) with
      ⟨hnone2, -⟩ | ⟨pos, d, ch, n, hsome2, hch, hn, -⟩
    · simp [hnone, hnone2]
    · obtain ⟨t', hun, -⟩ := unlink_spec hk.shape.ok2 hch hn hnd.2.1
      simp [hnone, hsome2, HTab.at, hun]
  · obtain ⟨t', hun, -⟩ := unlink_spec hk.shape.ok1 hch hn hnd.1
    simp [hsome, HTab.at, hun]

theorem hmLookup_total {m : HMap} (hs : m.Shape) (hx : m.Exact) {h : UInt64}
    {eq : HNode → Res Bool} {p : HNode → Bool}
    (he : ∀ n ∈ m.order, n.hcode = h → eq n = .ok (p n)) :
    ∃ m' r, hmLookup m h eq = .ok (m', r) := by
  obtain ⟨m₁, k, h₁, -⟩ := hmHelpResizing_total hs hx
  exact ⟨m₁, hmLookup_of_help hs h₁ he⟩

/-- From `m` to `m'` the node `n` was unlinked; a node of ht2 is charged to ht1. -/
structure HMap.Removed (n : HNode) (m m' : HMap) : Prop where
  shape : m'.Shape
  mem : n ∈ m.order
  nodes1 : m'.ht1.nodes = m.ht1.nodes.filter (· != n)
  nodes2 : m'.ht2.nodes = m.ht2.nodes.filter (· != n)
  exact : m'.Exact ↔ m.Exact ∧ n ∉ m.ht2.nodes
  tab2 : m'.ht2.tab.isSome = m.ht2.tab.isSome

theorem HMap.Removed.order {n : HNode} {m m' : HMap} (h : HMap.Removed n m m') :
    m'.order = m.order.filter (· != n) := by
  unfold HMap.order
  rw [h.nodes1, h.nodes2, List.filter_append]

/-- After the help of a call that finds a node, `ht1.size` is positive: either the call has just
moved 128 nodes to ht1, or ht2 is gone and all nodes are ht1's. -/
theorem HMap.Helped.size1_pos {k : Nat} {m m' : HMap} (h : HMap.Helped k m m') {n : HNode}
    (hn : n ∈ m'.order) : 0 < m'.ht1.size := by
  rcases h.work with hk | h2
  · have := h.size1
    have : resizingWork = 128 := rfl
    omega
  · have htot := h.shape.total
    rw [HTab.nodes_none h2, h.shape.ok2.null h2] at htot
    have := List.length_pos_of_mem hn
    unfold HMap.order at this
    rw [HTab.nodes_none h2, List.append_nil] at this
    simp at htot
    omega

/-- Unlinking from ht1, as both `h_detach(&ht1, from)` calls of `hm_delete` mean it. -/
theorem removed_ht1 {m : HMap} (hs : m.Shape) {n : HNode} {t : HTab} (ok : t.Ok)
    (hsome : t.tab.isSome = m.ht1.tab.isSome) (hsize : t.size = m.ht1.size)
    (hnodes : t.nodes = m.ht1.nodes.filter (· != n)) (hmem : n ∈ m.ht1.nodes)
    (h1 : 0 < m.ht1.size) : HMap.Removed n m { m with ht1 := t.charge } := by
  obtain ⟨hnd1, -, hdisj⟩ := List.nodup_append'.mp hs.nodup_order
  have hn2 : n ∉ m.ht2.nodes := fun h => hdisj hmem h
  have hlen := length_filter_bne hnd1 hmem
  have htot := hs.total
  have hle := hs.drift
  have hdec : sizeDec t.size + 1 = m.ht1.size := by rw [hsize]; exact sizeDec_pos h1
  have hsome1 : t.tab.isSome := by
    rw [hsome]
    cases ht : m.ht1.tab with
    | none => rw [HTab.nodes_none ht] at hmem; cases hmem
    | some _ => rfl
  have hord : HMap.order { m with ht1 := t.charge } = m.order.filter (· != n) := by
    show t.nodes ++ m.ht2.nodes = _
    rw [hnodes, HMap.order, List.filter_append, filter_bne_of_notMem hn2]
  refine ⟨?_, List.mem_append_left _ hmem, hnodes, (filter_bne_of_notMem hn2).symm,
    ⟨fun hx => ⟨hx, hn2⟩, fun hx => hx.1⟩, rfl⟩
  exact
    { ok1 := ok.resize hsome1
      ok2 := hs.ok2
      older := fun h => by rw [show t.tab = none from h] at hsome1; cases hsome1
      cleared := hs.cleared
      total := by
        show sizeDec t.size + m.ht2.size = t.nodes.length + m.ht2.nodes.length
        rw [hnodes]; omega
      drift := hle
      nodup := by
        rw [hord]
        exact (List.filter_sublist.map _).nodup hs.nodup }

/-- Unlinking from ht2 while ht1's size is decremented. -/
theorem removed_ht2 {m : HMap} (hs : m.Shape) {n : HNode} {pos d : Nat} {ch : Chain}
    (hch : m.ht2.buckets[pos]? = some ch) (hn : ch[d]? = some n) (h1 : 0 < m.ht1.size) :
    ∃ t, m.ht2.unlink ⟨pos, d⟩ = .ok (n, t) ∧
      HMap.Removed n m { m with ht1 := m.ht1.charge, ht2 := t } := by
  obtain ⟨-, hnd2, hdisj⟩ := List.nodup_append'.mp hs.nodup_order
  obtain ⟨t, hun, ok, hsome, -, hsize, hnodes, hbuck, hmem⟩ := unlink_spec hs.ok2 hch hn hnd2
  have hn1 : n ∉ m.ht1.nodes := fun h => hdisj h hmem
  have hlen := length_filter_bne hnd2 hmem
  have htot := hs.total
  have hle := hs.drift
  have hdec : sizeDec m.ht1.size + 1 = m.ht1.size := sizeDec_pos h1
  have hsome2 : m.ht2.tab.isSome := HMap.some_of_bucket hch
  have hord : HMap.order { m with ht1 := m.ht1.charge, ht2 := t } = m.order.filter (· != n) := by
    show m.ht1.nodes ++ t.nodes = _
    rw [hnodes, HMap.order, List.filter_append, filter_bne_of_notMem hn1]
  refine ⟨t, hun, ⟨?_, List.mem_append_right _ hmem, (filter_bne_of_notMem hn1).symm, hnodes, ?_,
    hsome⟩⟩
  · exact
      { ok1 := hs.ok1.resize (hs.some1 hsome2)
        ok2 := ok
        older := by
          intro h
          have := hs.some1 hsome2
          rw [show m.ht1.tab = none from h] at this
          cases this
        cleared := by
          show ClearedBelow t.buckets m.resizingPos
          rw [hbuck]
          apply hs.cleared.set
          intro hlt
          rw [hs.cleared pos ch hlt hch] at hn
          simp at hn
        total := by
          show sizeDec m.ht1.size + t.size = m.ht1.nodes.length + t.nodes.length
          rw [hnodes, hsize]; omega
        drift := by show t.nodes.length ≤ t.size; rw [hnodes, hsize]; omega
        nodup := by
          rw [hord]
          exact (List.filter_sublist.map _).nodup hs.nodup }
  · unfold HMap.Exact
    show t.size = t.nodes.length ↔ _
    rw [hnodes, hsize]
    constructor
    · intro h; omega
    · rintro ⟨-, h⟩; exact absurd hmem h

theorem hmDelete_spec {m m' : HMap} (hs : m.Shape) {h : UInt64} {eq : HNode → Res Bool}
    {p : HNode → Bool} (he : ∀ n ∈ m.order, n.hcode = h → eq n = .ok (p n)) {r : Option HNode}
    (hd : hmDelete m h eq = .ok (m', r)) :
    ∃ m₁ k, hmHelpResizing m = .ok m₁ ∧ HMap.Helped k m m₁ ∧ r = m₁.found h p ∧
      match r with
      | none => m' = m₁
      | some n => HMap.Removed n m₁ m' := by
  obtain ⟨m₁, h₁, hd⟩ := Runs.bind_ok.mp hd
  obtain ⟨k, hk⟩ := hmHelpResizing_spec hs h₁
  have he₁ : ∀ n ∈ m₁.order, n.hcode = h → eq n = .ok (p n) := fun n hn => he n (hk.mem.mp hn)
  have hnd := List.nodup_append.mp hk.shape.nodup_order
  refine ⟨m₁, k, h₁, hk, ?_⟩
  rcases hlookup_spec hk.shape.ok1 (fun n hn => he₁ n (List.mem_append_left _ hn)) with
    ⟨hnone, hf1⟩ | ⟨pos, d, ch, n, hsome, hch, hn, hf1⟩
  · rcases hlookup_spec hk.shape.ok2 (fun n hn => he₁ n (List.mem_append_right _ hn)) with
      ⟨hnone2, hf2⟩ | ⟨pos, d, ch, n, hsome2, hch, hn, hf2⟩
    · simp only [hnone, hnone2, Runs.ok_bind, Runs.pure_ok] at hd
      cases hd
      exact ⟨by simp [HMap.found, HMap.order, List.find?_append, hf1, hf2], rfl⟩
    · have hmem : n ∈ m₁.order := List.mem_append_right _ (List.mem_of_find?_eq_some hf2)
      obtain ⟨t, hun, hrem⟩ := removed_ht2 hk.shape hch hn (hk.size1_pos hmem)
      simp only [hnone, hsome2, hun, Runs.ok_bind, Runs.pure_ok] at hd
      cases hd
      exact ⟨by simp [HMap.found, HMap.order, List.find?_append, hf1, hf2], hrem⟩
  · have hmem : n ∈ m₁.ht1.nodes := List.mem_of_find?_eq_some hf1
    obtain ⟨t, hun, ok, hsm, -, hsz, hnodes, -, -⟩ := unlink_spec hk.shape.ok1 hch hn hnd.1
    simp only [hsome, hDetach, hun, Runs.ok_bind, Runs.pure_ok] at hd
    cases hd
    exact ⟨by simp [HMap.found, HMap.order, List.find?_append, hf1],
      removed_ht1 hk.shape ok hsm hsz hnodes hmem (hk.size1_pos (List.mem_append_left _ hmem))⟩

theorem hmDelete_total {m : HMap} (hs : m.Shape) (hx : m.Exact) {h : UInt64}
    {eq : HNode → Res Bool} {p : HNode → Bool}
    (he : ∀ n ∈ m.order, n.hcode = h → eq n = .ok (p n)) :
    ∃ m' r, hmDelete m h eq = .ok (m', r) := by
  obtain ⟨m₁, k, h₁, hk, -⟩ := hmHelpResizing_total hs hx
  have he₁ : ∀ n ∈ m₁.order, n.hcode = h → eq n = .ok (p n) := fun n hn => he n (hk.mem.mp hn)
  have hnd := List.nodup_append.mp hk.shape.nodup_order
  unfold hmDelete
  simp only [h₁, Runs.ok_bind]
  rcases hlookup_spec hk.shape.ok1 (fun n hn => he₁ n (List.mem_append_left _ hn)) with
    ⟨hnone, -⟩ | ⟨pos, d, ch, n, hsome, hch, hn, -⟩
  · rcases hlookup_spec hk.shape.ok2 (fun n hn => he₁ n (List.mem_append_right _ hn)) with
      ⟨hnone2, -⟩ | ⟨pos, d, ch, n, hsome2, hch, hn, -⟩
    · simp [hnone, hnone2]
    · obtain ⟨t', hun, -⟩ := unlink_spec hk.shape.ok2 hch hn hnd.2.1
      simp [hnone, hsome2, hun]
  · obtain ⟨t', hun, -⟩ := unlink_spec hk.shape.ok1 hch hn hnd.1
    simp [hsome, hDetach, hun]

/-! ## Scanning -/

theorem mapM_ok {α β : Type} {f : α → Res β} {g : α → β} : ∀ {l : List α},
    (∀ a ∈ l, f a = .ok (g a)) → l.mapM f = .ok (l.map g)
  | [], _ => rfl
  | a :: l, h => by
    rw [List.mapM_cons, h a List.mem_cons_self, Runs.ok_bind,
      mapM_ok fun b hb => h b (List.mem_cons_of_mem _ hb), Runs.ok_bind]
    rfl

/-- `h_scan` visits every node, unless a table with nodes counts none. -/
theorem hScan_ok {t : HTab} (ok : t.Ok) (hs : t.nodes ≠ [] → 0 < t.size) :
    hScan t = .ok t.nodes := by
  unfold hScan
  split
  · rename_i hz
    by_contra hne
    refine absurd (hs fun hnil => hne (by rw [hnil])) (by omega)
  · rename_i hz
    have hsome : t.tab.isSome := ok.isSome_of_size (Nat.pos_of_ne_zero hz)
    have hlen := ok.length hsome
    have hb : ∀ i ∈ List.range (t.mask + 1), t.bucket i = .ok (t.buckets[i]?.getD []) := by
      intro i hi
      have hi := List.mem_range.mp hi
      rw [HTab.bucket_ok, List.getElem?_eq_getElem (by omega)]
      rfl
    have hall : (List.range (t.mask + 1)).map (fun i => t.buckets[i]?.getD []) = t.buckets := by
      apply List.ext_getElem (by simp [hlen])
      intro i h₁ h₂
      simp [List.getElem?_eq_getElem h₂]
    rw [mapM_ok hb, hall]
    rfl

end RedisServer
