import RedisServer.Requests
import RedisServer.HashTableRuns

/-!
# The keyspace: linked nodes and stored entries

`GlobalData.Wf` ties the hash map to the entries: the linked nodes are those of the stored entries,
under the hash value of their key, in tables of the right shape.  Every reachable state has it
(`serve_wf`), whatever was deleted or stored twice.

`GlobalData.copies` are the nodes stored under one key in the order in which a lookup meets them;
`lookupEntry_spec` says that a lookup answers the first of them.  `Change` is `Effect` as seen from
the keyspace: TTLs and the contents of sorted sets are left out (`SameFrame`).
-/

set_option autoImplicit false

namespace RedisServer

open Runs

/-- The entry around the node has this key. -/
def hasKey (E : Store Entry) (key : Bytes) (n : HNode) : Bool :=
  match E n.ptr with
  | some e => decide (e.key = key)
  | none => false

theorem hasKey_of {E : Store Entry} {key : Bytes} {n : HNode} {e : Entry} (h : E n.ptr = some e) :
    hasKey E key n = true ↔ e.key = key := by
  simp [hasKey, h]

theorem hasKey_iff {E : Store Entry} {key : Bytes} {n : HNode} :
    hasKey E key n = true ↔ ∃ e, E n.ptr = some e ∧ e.key = key := by
  unfold hasKey; cases E n.ptr <;> simp

/-- The nodes stored under `key`, in the order of a lookup. -/
def GlobalData.copies (g : GlobalData) (key : Bytes) : List HNode :=
  g.db.order.filter (hasKey g.entries key)

/-- Hash map and entries belong together. -/
structure GlobalData.Wf (g : GlobalData) : Prop where
  shape : g.db.Shape
  linked : ∀ n ∈ g.db.order, ∃ e, g.entries n.ptr = some e ∧ e.node = n
  stored : ∀ p e, g.entries p = some e →
    e.node ∈ g.db.order ∧ e.node.ptr = p ∧ e.node.hcode = strHash e.key
  fresh : ∀ p, g.next ≤ p → g.entries p = none

theorem GlobalData.Wf.empty : GlobalData.Wf {} where
  shape := .empty
  linked n hn := by cases hn
  stored p e he := by cases he
  fresh _ _ := rfl

/-- TTLs and the thread pool play no part in it. -/
theorem GlobalData.Wf.congr {g g' : GlobalData} (w : g.Wf) (hdb : g'.db = g.db)
    (he : g'.entries = g.entries) (hn : g'.next = g.next) : g'.Wf where
  shape := hdb ▸ w.shape
  linked := by rw [hdb, he]; exact w.linked
  stored := by rw [hdb, he]; exact w.stored
  fresh := by rw [hn, he]; exact w.fresh

/-! ## Entries up to their TTL and the contents of their sorted set -/

/-- An entry without `heap_idx` and without the contents of its sorted set. -/
def Entry.frame (e : Entry) : Entry :=
  { e with heapIdx := none, zset := e.zset.map fun _ => {} }

def SameFrame (E E' : Store Entry) : Prop := ∀ p, (E' p).map Entry.frame = (E p).map Entry.frame

theorem SameFrame.refl (E : Store Entry) : SameFrame E E := fun _ => rfl

theorem SameFrame.trans {E E₁ E₂ : Store Entry} (h : SameFrame E E₁) (h' : SameFrame E₁ E₂) :
    SameFrame E E₂ := fun p => (h' p).trans (h p)

theorem Entry.frame_eq {e e' : Entry} (h : e'.frame = e.frame) :
    e'.node = e.node ∧ e'.key = e.key ∧ e'.val = e.val ∧ e'.type = e.type ∧
      e'.zset.isSome = e.zset.isSome := by
  simp only [Entry.frame, Entry.mk.injEq] at h
  refine ⟨h.1, h.2.1, h.2.2.1, h.2.2.2.1, ?_⟩
  have := congrArg Option.isSome h.2.2.2.2.1
  simpa using this

theorem SameFrame.after {E E' : Store Entry} (h : SameFrame E E') {p : Ptr} {e : Entry}
    (he : E p = some e) : ∃ e', E' p = some e' ∧ e'.frame = e.frame := by
  have := h p
  rw [he] at this
  simpa using this

theorem SameFrame.before {E E' : Store Entry} (h : SameFrame E E') {p : Ptr} {e' : Entry}
    (he : E' p = some e') : ∃ e, E p = some e ∧ e'.frame = e.frame := by
  have := h p
  rw [he] at this
  obtain ⟨e, he, hf⟩ := Option.map_eq_some_iff.mp this.symm
  exact ⟨e, he, hf.symm⟩

theorem SameFrame.gone {E E' : Store Entry} (h : SameFrame E E') {p : Ptr} (he : E p = none) :
    E' p = none := by
  have := h p
  rw [he] at this
  simpa using this

theorem SameFrame.write {E : Store Entry} {p : Ptr} {e e' : Entry} (he : E p = some e)
    (hf : e'.frame = e.frame) : SameFrame E (E.write p e') := by
  intro q
  by_cases hq : q = p
  · subst hq; simp [he, hf]
  · rw [Store.write_of_ne _ _ hq]

theorem Retimed.sameFrame {E E' : Store Entry} (h : Retimed E E') : SameFrame E E' := by
  intro p
  have hf : Entry.frame = Entry.frame ∘ Entry.body := rfl
  rw [hf, ← Option.map_map, h p, Option.map_map]

theorem frame_zset {e : Entry} (z : ZSet) (h : e.zset.isSome) :
    ({ e with zset := some z } : Entry).frame = e.frame := by
  obtain ⟨z', hz⟩ := Option.isSome_iff_exists.mp h
  simp [Entry.frame, hz]

theorem SameFrame.free {E E' : Store Entry} (h : SameFrame E E') (p : Ptr) :
    SameFrame (E.free p) (E'.free p) := by
  intro q
  by_cases hq : q = p
  · subst hq; simp
  · rw [Store.free_of_ne _ hq, Store.free_of_ne _ hq]; exact h q

theorem SameFrame.hasKey {E E' : Store Entry} (h : SameFrame E E') (key : Bytes) :
    hasKey E' key = hasKey E key := by
  funext n
  unfold RedisServer.hasKey
  cases he : E n.ptr with
  | none => rw [h.gone he]
  | some e =>
    obtain ⟨e', he', hf⟩ := h.after he
    simp only [he', (Entry.frame_eq hf).2.1]

/-! ## Lookups -/

namespace GlobalData

variable {g : GlobalData}

theorem Wf.eq_ok (w : g.Wf) (key : Bytes) : ∀ n ∈ g.db.order, n.hcode = strHash key →
    entryEq g.entries key n = .ok (hasKey g.entries key n) := by
  intro n hn _
  obtain ⟨e, he, -⟩ := w.linked n hn
  simp [entryEq, hasKey, Store.read_of he, he]

theorem Wf.hcode (w : g.Wf) {n : HNode} (hn : n ∈ g.db.order) {key : Bytes}
    (hk : hasKey g.entries key n = true) : n.hcode = strHash key := by
  obtain ⟨e, he, hnode⟩ := w.linked n hn
  obtain ⟨-, -, hh⟩ := w.stored _ _ he
  rw [← hnode, hh, (hasKey_of he).mp hk]

theorem Wf.hits_eq (w : g.Wf) {n : HNode} (hn : n ∈ g.db.order) (key : Bytes) :
    hits (strHash key) (hasKey g.entries key) n = hasKey g.entries key n := by
  unfold hits
  cases hk : hasKey g.entries key n with
  | false => simp
  | true => simp [cls_iff.mpr (w.hcode hn hk)]

/-- Same entries, nodes in another order. -/
theorem Wf.moved (w : g.Wf) {db : HMap} (hs : db.Shape) (hm : ∀ n, n ∈ db.order ↔ n ∈ g.db.order) :
    Wf { g with db := db } where
  shape := hs
  linked n hn := w.linked n ((hm n).mp hn)
  stored p e he := by
    obtain ⟨h₁, h₂, h₃⟩ := w.stored p e he
    exact ⟨(hm _).mpr h₁, h₂, h₃⟩
  fresh := w.fresh

theorem Wf.helped (w : g.Wf) {db : HMap} {k : Nat} (h : HMap.Helped k g.db db) :
    Wf { g with db := db } := w.moved h.shape fun _ => h.mem

theorem Wf.found_eq (w : g.Wf) (key : Bytes) :
    g.db.found (strHash key) (hasKey g.entries key) = (g.copies key).head? := by
  unfold HMap.found copies
  rw [List.head?_filter]
  generalize hl : g.db.order = l
  have hmem : ∀ n ∈ l, n ∈ g.db.order := fun n hn => hl ▸ hn
  clear hl
  induction l with
  | nil => rfl
  | cons n l ih =>
    rw [List.find?_cons, List.find?_cons, w.hits_eq (hmem n List.mem_cons_self),
      ih fun x hx => hmem x (List.mem_cons_of_mem _ hx)]

theorem Wf.copy (w : g.Wf) {key : Bytes} {n : HNode} (h : n ∈ g.copies key) :
    ∃ e, g.entries n.ptr = some e ∧ e.node = n ∧ e.key = key := by
  obtain ⟨hn, hk⟩ := List.mem_filter.mp h
  obtain ⟨e, he, hnode⟩ := w.linked n hn
  exact ⟨e, he, hnode, (hasKey_of he).mp hk⟩

theorem Wf.mem_copies (w : g.Wf) {p : Ptr} {e : Entry} (he : g.entries p = some e) :
    e.node ∈ g.copies e.key ∧ e.node.ptr = p := by
  obtain ⟨hn, hp, -⟩ := w.stored p e he
  exact ⟨List.mem_filter.mpr ⟨hn, hasKey_iff.mpr ⟨e, hp.symm ▸ he, rfl⟩⟩, hp⟩

/-- What a lookup of `key` does: help the resize, and answer the first copy. -/
structure Looked (g : GlobalData) (key : Bytes) (g' : GlobalData) (r : Option Ptr) : Prop where
  data : g' = { g with db := g'.db }
  help : hmHelpResizing g.db = .ok g'.db
  helped : ∃ k, HMap.Helped k g.db g'.db
  found : r = (g'.copies key).head?.map HNode.ptr
  wf : g'.Wf

end GlobalData

open GlobalData

variable {g g' : GlobalData} {key : Bytes} {now : UInt64}

theorem lookupEntry_spec (w : g.Wf) {r : Option Ptr} (h : lookupEntry g key = .ok (g', r)) :
    Looked g key g' r := by
  obtain ⟨⟨db, found⟩, hl, h⟩ := bind_ok.mp h
  cases h
  obtain ⟨hhelp, ⟨k, hk⟩, hf⟩ := hmLookup_spec w.shape (w.eq_ok key) hl
  have w' := w.helped hk
  exact ⟨rfl, hhelp, ⟨k, hk⟩, by rw [hf]; exact congrArg _ (w'.found_eq key), w'⟩

/-- With exact sizes a lookup does not fault. -/
theorem lookupEntry_total (w : g.Wf) (hx : g.db.Exact) (key : Bytes) :
    ∃ g' r, lookupEntry g key = .ok (g', r) ∧ Looked g key g' r ∧ g'.db.Exact := by
  obtain ⟨db, found, hl⟩ := hmLookup_total w.shape hx (w.eq_ok key)
  have h : lookupEntry g key = .ok ({ g with db := db }, found.map HNode.ptr) := by
    simp [lookupEntry, hl]
  have hl' := lookupEntry_spec w h
  obtain ⟨k, hk⟩ := hl'.helped
  exact ⟨_, _, h, hl', hk.exact.mpr hx⟩

theorem GlobalData.Looked.entries {r : Option Ptr} (h : Looked g key g' r) :
    g'.entries = g.entries := by rw [h.data]

/-- The entry found is stored under the key. -/
theorem GlobalData.Looked.some {p : Ptr} (h : Looked g key g' (some p)) :
    ∃ n e, (g'.copies key).head? = some n ∧ n.ptr = p ∧ g'.entries p = some e ∧ e.node = n ∧
      e.key = key := by
  obtain ⟨n, hn, hp⟩ := Option.map_eq_some_iff.mp h.found.symm
  obtain ⟨e, he, hnode, hk⟩ := h.wf.copy (List.mem_of_mem_head? hn)
  exact ⟨n, e, hn, hp, hp ▸ he, hnode, hk⟩

/-! ## Insertion -/

/-- `insertEntry` linked a new entry and helped the resize. -/
structure GlobalData.Created (g : GlobalData) (e : Entry) (m : HMap) (g' : GlobalData) : Prop where
  node : e.node = ⟨g.next, strHash e.key⟩
  data : g' = { g with db := g'.db, entries := g.entries.write g.next e, next := g.next + 1 }
  link : hmLink g.db e.node = .ok m
  linked : HMap.Linked e.node g.db m
  helped : ∃ k, HMap.Helped k m g'.db
  wf : g'.Wf

theorem GlobalData.Wf.unlinked (w : g.Wf) : g.next ∉ g.db.order.map HNode.ptr := by
  intro hn
  obtain ⟨n, hn, hp⟩ := List.mem_map.mp hn
  obtain ⟨e, he, -⟩ := w.linked n hn
  rw [w.fresh n.ptr (Nat.le_of_eq hp.symm)] at he
  cases he

theorem GlobalData.Wf.create (w : g.Wf) {e : Entry} (hnode : e.node = ⟨g.next, strHash e.key⟩)
    {db : HMap} (hs : db.Shape) (hp : db.order.Perm (e.node :: g.db.order)) :
    Wf { g with db := db, entries := g.entries.write g.next e, next := g.next + 1 } where
  shape := hs
  linked n hn := by
    rcases List.mem_cons.mp (hp.mem_iff.mp hn) with rfl | hn
    · exact ⟨e, by rw [hnode]; exact Store.write_self _ _ _, rfl⟩
    · obtain ⟨e', he', hn'⟩ := w.linked n hn
      have hne : n.ptr ≠ g.next := by
        intro hpe
        rw [w.fresh n.ptr (Nat.le_of_eq hpe.symm)] at he'
        cases he'
      exact ⟨e', (Store.write_of_ne _ _ hne).trans he', hn'⟩
  stored p e' he' := by
    have he' : g.entries.write g.next e p = some e' := he'
    by_cases hpe : p = g.next
    · subst hpe
      rw [Store.write_self] at he'
      cases he'
      exact ⟨hp.mem_iff.mpr List.mem_cons_self, by rw [hnode], by rw [hnode]⟩
    · rw [Store.write_of_ne _ _ hpe] at he'
      obtain ⟨h₁, h₂, h₃⟩ := w.stored p e' he'
      exact ⟨hp.mem_iff.mpr (List.mem_cons_of_mem _ h₁), h₂, h₃⟩
  fresh p hle := by
    have hle : g.next + 1 ≤ p := hle
    exact (Store.write_of_ne _ _ (Nat.ne_of_gt hle)).trans (w.fresh p (Nat.le_of_succ_le hle))

/-- The entry `insertEntry` makes. -/
def newEntry (g : GlobalData) (key val : Bytes) (type : Nat) (zset : Option ZSet) : Entry :=
  { node := ⟨g.next, strHash key⟩, key := key, val := val, type := type, zset := zset }

theorem insertEntry_spec (w : g.Wf) {val : Bytes} {type : Nat} {zset : Option ZSet} {p : Ptr}
    (h : insertEntry g key val type zset = .ok (g', p)) :
    p = g.next ∧ ∃ m, Created g (newEntry g key val type zset) m g' := by
  obtain ⟨db, hi, h⟩ := bind_ok.mp h
  cases h
  obtain ⟨m, k, hlink, hl, hk⟩ := hmInsert_spec w.shape w.unlinked hi
  have hperm := hk.perm.trans hl.perm
  exact ⟨rfl, m, rfl, rfl, hlink, hl, ⟨k, hk⟩,
    w.create (e := newEntry g key val type zset) rfl hk.shape hperm⟩

theorem insertEntry_total (w : g.Wf) (hx : g.db.Exact) (key val : Bytes) (type : Nat)
    (zset : Option ZSet) :
    ∃ g' m, insertEntry g key val type zset = .ok (g', g.next) ∧
      Created g (newEntry g key val type zset) m g' ∧ g'.db.Exact := by
  obtain ⟨db, hi, -, hx'⟩ := hmInsert_total w.shape hx (n := ⟨g.next, strHash key⟩) w.unlinked
  have h : insertEntry g key val type zset = .ok ({ g with
      db := db, entries := g.entries.write g.next (newEntry g key val type zset),
      next := g.next + 1 }, g.next) := by
    simp [insertEntry, hi, newEntry]
  obtain ⟨-, m, hc⟩ := insertEntry_spec w h
  exact ⟨_, m, h, hc, hx'⟩

/-! ## Deletion -/

/-- The entry at `p` was unlinked and freed. -/
structure GlobalData.Erased (g : GlobalData) (key : Bytes) (n : HNode) (g' : GlobalData) :
    Prop where
  help : ∃ m, hmHelpResizing g.db = .ok m ∧ (∃ k, HMap.Helped k g.db m) ∧
    HMap.Removed n m g'.db ∧ some n = (GlobalData.copies { g with db := m } key).head?
  frame : SameFrame (g.entries.free n.ptr) g'.entries
  next : g'.next = g.next
  wf : g'.Wf

theorem GlobalData.Wf.frame (w : g.Wf) {E : Store Entry} (hf : SameFrame g.entries E) :
    Wf { g with entries := E } where
  shape := w.shape
  linked n hn := by
    obtain ⟨e, he, hnode⟩ := w.linked n hn
    obtain ⟨e', he', hfe⟩ := hf.after he
    exact ⟨e', he', (Entry.frame_eq hfe).1.trans hnode⟩
  stored p e' he' := by
    obtain ⟨e, he, hfe⟩ := hf.before he'
    obtain ⟨h₁, h₂, h₃⟩ := w.stored p e he
    obtain ⟨hn, hk, -⟩ := Entry.frame_eq hfe
    exact ⟨hn.symm ▸ h₁, hn.symm ▸ h₂, by rw [hn, hk, h₃]⟩
  fresh p hle := hf.gone (w.fresh p hle)

theorem GlobalData.Wf.erase (w : g.Wf) {n : HNode} {db : HMap} (hr : HMap.Removed n g.db db) :
    Wf { g with db := db, entries := g.entries.free n.ptr } where
  shape := hr.shape
  linked x hx := by
    have hx : x ∈ db.order := hx
    rw [hr.order, List.mem_filter] at hx
    obtain ⟨e, he, hnode⟩ := w.linked x hx.1
    refine ⟨e, Store.free_eq_some.mpr ⟨?_, he⟩, hnode⟩
    intro hp
    have hxn : x = n := List.inj_on_of_nodup_map w.shape.nodup hx.1 hr.mem hp
    simp [hxn] at hx
  stored p e he := by
    obtain ⟨hp, he⟩ := Store.free_eq_some.mp he
    obtain ⟨h₁, h₂, h₃⟩ := w.stored p e he
    refine ⟨?_, h₂, h₃⟩
    show e.node ∈ db.order
    rw [hr.order, List.mem_filter]
    exact ⟨h₁, by simp; rintro rfl; exact hp h₂.symm⟩
  fresh p hle := by
    by_cases hp : p = n.ptr
    · subst hp; exact Store.free_self _ _
    · show g.entries.free n.ptr p = none
      rw [Store.free_of_ne _ hp]; exact w.fresh p hle

/-- What `entry_del` leaves of the data does not depend on the thread pool. -/
theorem entryDel_ok {p : Ptr} (h : entryDel g p = .ok g') :
    ∃ e tp, g.entries p = some e ∧ g' = { g with entries := g.entries.free p, tp := tp } := by
  obtain ⟨e, he, h⟩ := bind_ok.mp h
  refine ⟨e, g'.tp, Store.read_ok.mp he, ?_⟩
  dsimp only at h
  split at h <;> · cases h; rfl

theorem delete_spec (w : g.Wf) {db : HMap} {r : Option HNode}
    (h : hmDelete g.db (strHash key) (entryEq g.entries key) = .ok (db, r)) :
    ∃ m k, hmHelpResizing g.db = .ok m ∧ HMap.Helped k g.db m ∧
      r = (GlobalData.copies { g with db := m } key).head? ∧
      match r with
      | none => db = m
      | some n => HMap.Removed n m db := by
  obtain ⟨m, k, hhelp, hk, hf, hr⟩ := hmDelete_spec w.shape (w.eq_ok key) h
  refine ⟨m, k, hhelp, hk, by rw [hf]; exact (w.helped hk).found_eq key, ?_⟩
  cases r <;> exact hr

theorem deleted_spec (w : g.Wf) {db : HMap} {n : HNode}
    (hd : hmDelete g.db (strHash key) (entryEq g.entries key) = .ok (db, some n))
    (he : entryDel { g with db := db } n.ptr = .ok g') :
    Erased g key n g' ∧ g'.heap = g.heap ∧ g'.entries = g.entries.free n.ptr := by
  obtain ⟨m, k, hhelp, hk, hf, hr⟩ := delete_spec w hd
  obtain ⟨e, tp, -, rfl⟩ := entryDel_ok he
  have w' := (w.helped hk).erase hr
  exact ⟨⟨⟨m, hhelp, ⟨k, hk⟩, hr, hf⟩, .refl _, rfl, w'.congr rfl rfl rfl⟩, rfl, rfl⟩

/-! ## The TTL functions change no frame -/

theorem entrySetTtl_ok {p : Ptr} {ttlMs : Int} (h : entrySetTtl g p ttlMs now = .ok g') :
    Retimed g.entries g'.entries ∧
      g' = { g with entries := g'.entries, heap := g'.heap } := by
  obtain ⟨e, he, h⟩ := bind_ok.mp h
  have he := Store.read_ok.mp he
  split at h
  · split at h
    · cases h; exact ⟨.refl _, rfl⟩
    · obtain ⟨⟨E, a⟩, hr, h⟩ := bind_ok.mp h
      obtain ⟨E', hm, h⟩ := bind_ok.mp h
      cases h
      obtain ⟨e', he', rfl⟩ := Store.modify_ok.mp hm
      exact ⟨(heapRemove_retimed hr).trans (.write he' rfl), rfl⟩
  · dsimp only at h
    split at h
    · obtain ⟨E, hr, h⟩ := bind_ok.mp h
      obtain ⟨⟨E', a⟩, hu, h⟩ := bind_ok.mp h
      cases h
      exact ⟨(setRef_retimed hr).trans (heapUpdate_retimed hu), rfl⟩
    · obtain ⟨x, -, h⟩ := bind_ok.mp h
      obtain ⟨a₁, -, h⟩ := bind_ok.mp h
      obtain ⟨⟨E', a⟩, hu, h⟩ := bind_ok.mp h
      cases h
      exact ⟨heapUpdate_retimed hu, rfl⟩

/-- Inversion of an iteration of the TTL loop. -/
theorem expireTop_ok (h : expireTop g = .ok g') :
    ∃ top e db n pos E a tp, g.heap[0]? = some top ∧ g.entries top.ref = some e ∧
      hmDelete g.db e.node.hcode (entryEq g.entries e.key) = .ok (db, some n) ∧
      n.ptr = top.ref ∧ e.heapIdx = some pos ∧ heapRemove g.entries g.heap pos = .ok (E, a) ∧
      g' = { g with db := db, entries := E.free top.ref, heap := a, tp := tp } := by
  obtain ⟨top, htop, h⟩ := bind_ok.mp h
  obtain ⟨e, he, h⟩ := bind_ok.mp h
  obtain ⟨⟨db, r⟩, hd, h⟩ := bind_ok.mp h
  obtain ⟨u, hassert, hrest⟩ := bind_ok.mp h
  rw [assert_ok, decide_eq_true_eq, Option.map_eq_some_iff] at hassert
  obtain ⟨n, rfl, hn⟩ := hassert
  split at hrest
  · cases hrest
  · rename_i pos hpos
    obtain ⟨⟨E, a⟩, hr, h⟩ := bind_ok.mp hrest
    obtain ⟨E', hm, h⟩ := bind_ok.mp h
    obtain ⟨e₁, -, rfl⟩ := Store.modify_ok.mp hm
    obtain ⟨e₂, tp, -, rfl⟩ := entryDel_ok h
    exact ⟨top, e, db, n, pos, E, a, tp, itemAt_ok.mp htop, Store.read_ok.mp he, hd, hn, hpos, hr,
      by simp⟩

/-- An iteration of the TTL loop that returns: the entry of the first slot is erased. -/
theorem expireTop_spec (w : g.Wf) (h : expireTop g = .ok g') :
    ∃ top e n, g.heap[0]? = some top ∧ g.entries top.ref = some e ∧ n.ptr = top.ref ∧
      Erased g e.key n g' := by
  obtain ⟨top, e, db, n, pos, E, a, tp, htop, he, hd, hn, -, hr, rfl⟩ := expireTop_ok h
  rw [(w.stored _ _ he).2.2] at hd
  obtain ⟨m, k, hhelp, hk, hf, hrem⟩ := delete_spec w hd
  have hframe : SameFrame (g.entries.free n.ptr) (E.free top.ref) := by
    rw [hn]; exact (heapRemove_retimed hr).sameFrame.free top.ref
  have w' := ((w.helped hk).erase hrem).frame hframe
  exact ⟨top, e, n, htop, he, hn, ⟨m, hhelp, ⟨k, hk⟩, hrem, hf⟩, hframe, rfl, w'.congr rfl rfl rfl⟩

/-! ## Steps -/

/-- The keys a step deletes, stores whatever is there, or adds when they are missing. -/
structure Keys where
  deleted : Option Bytes := none
  stored : Option Bytes := none
  added : Option Bytes := none

/-- The keys of a request. -/
def keysOf (cmd : List Bytes) : Keys := ⟨deletedKey cmd, setKey cmd, zaddKey cmd⟩

/-- What a step on the keys `ks` does to the keyspace. -/
inductive Change (ks : Keys) (g : GlobalData) : GlobalData → Prop where
  | idle : Change ks g g
  | looked {g' : GlobalData} {k : Nat} : HMap.Helped k g.db g'.db →
      SameFrame g.entries g'.entries → g'.next = g.next → g'.Wf → Change ks g g'
  | created {g₁ g₂ g' : GlobalData} {e : Entry} {m : HMap} :
      (g₁ = g ∧ e.key ∈ ks.stored) ∨ (Looked g e.key g₁ none ∧ e.key ∈ ks.added) →
      Created g₁ e m g₂ → (e.zset.isSome ↔ e.type = 1) → SameFrame g₂.entries g'.entries →
      g'.db = g₂.db → g'.next = g₂.next → g'.Wf → Change ks g g'
  | erased {g' : GlobalData} {key : Bytes} {n : HNode} : key ∈ ks.deleted → Erased g key n g' →
      Change ks g g'

theorem Effect.change {cmd : List Bytes} (w : g.Wf) (h : Effect now g cmd g') :
    Change (keysOf cmd) g g' := by
  cases h with
  | idle => exact .idle
  | looked _ hl =>
    have hl := lookupEntry_spec w hl
    obtain ⟨k, hk⟩ := hl.helped
    exact .looked hk (by rw [hl.entries]; exact .refl _) (by rw [hl.data]) hl.wf
  | @ranked _ key g₁ p e z _ hl he hz =>
    have hl := lookupEntry_spec w hl
    obtain ⟨k, hk⟩ := hl.helped
    have hf : SameFrame g₁.entries (g₁.entries.write p { e with zset := some z }) :=
      .write he (frame_zset z hz)
    refine .looked (k := k) hk ?_ (by rw [hl.data]) (hl.wf.frame hf)
    rw [← hl.entries]; exact hf
  | @timed key s ttlMs g₁ g' p _ hl ht =>
    have hl := lookupEntry_spec w hl
    obtain ⟨k, hk⟩ := hl.helped
    obtain ⟨hr, hg⟩ := entrySetTtl_ok ht
    have w' := hl.wf.frame hr.sameFrame
    rw [hg]
    refine .looked (k := k) hk ?_ (by simp only; rw [hl.data]) (w'.congr rfl rfl rfl)
    rw [← hl.entries]; exact hr.sameFrame
  | stored hi =>
    obtain ⟨-, m, hc⟩ := insertEntry_spec w hi
    exact .created (.inl ⟨rfl, by simp [keysOf, newEntry]⟩) hc (by simp [newEntry]) (.refl _) rfl rfl
      hc.wf
  | @added key s name score g₁ g₂ p e z _ hl hi he =>
    have hl := lookupEntry_spec w hl
    obtain ⟨rfl, m, hc⟩ := insertEntry_spec hl.wf hi
    have hz : e.zset.isSome := by
      rw [hc.data] at he
      simp only [Store.write_self, Option.some.injEq] at he
      rw [← he]; rfl
    have hf : SameFrame g₂.entries (g₂.entries.write g₁.next { e with zset := some z }) :=
      .write he (frame_zset z hz)
    exact .created (.inr ⟨hl, by simp [keysOf, newEntry]⟩) hc (by simp [newEntry]) hf rfl rfl
      (hc.wf.frame hf)
  | @missed key db hd =>
    obtain ⟨m, k, -, hk, -, rfl⟩ := delete_spec w hd
    exact .looked hk (.refl _) rfl (w.helped hk)
  | deleted hd he =>
    have her := (deleted_spec w hd he).1
    exact .erased (by simp [keysOf]) her

variable {ks : Keys}

theorem Change.wf (w : g.Wf) (h : Change ks g g') : g'.Wf := by
  cases h with
  | idle => exact w
  | looked _ _ _ w' => exact w'
  | created _ _ _ _ _ _ w' => exact w'
  | erased _ he => exact he.wf

/-- The key of the entry the first heap slot refers to. -/
def GlobalData.topKey (g : GlobalData) : Option Bytes :=
  g.heap.head?.bind fun top => (g.entries top.ref).map Entry.key

theorem expireTop_change (w : g.Wf) (h : expireTop g = .ok g') :
    Change { deleted := g.topKey } g g' := by
  obtain ⟨top, e, n, htop, he, -, her⟩ := expireTop_spec w h
  rw [← List.head?_eq_getElem?] at htop
  exact .erased (by simp [topKey, htop, he]) her

/-- **Every step keeps hash map and entries together.** -/
theorem serve_wf {lim : Limits} (g : GlobalData) (ev : Event) (g' : GlobalData) (w : g.Wf)
    (h : serve lim g ev = .ok g') : g'.Wf :=
  serve_invariant (fun _ _ _ _ w _ he => (he.change w).wf w)
    (fun _ _ w _ he => (expireTop_change w he).wf w) w (meets_true g ev) h

/-- A deletion finds what a lookup would find. -/
theorem resolve_of_help (w : g.Wf) {m : HMap} (hm : hmHelpResizing g.db = .ok m) {n : HNode}
    (hf : some n = (GlobalData.copies { g with db := m } key).head?) :
    ∃ e, g.resolve key = some e ∧ g.entries n.ptr = some e ∧ e.node = n ∧ e.key = key := by
  obtain ⟨r, hl⟩ := hmLookup_of_help w.shape hm (w.eq_ok key)
  have hle : lookupEntry g key = .ok ({ g with db := m }, r.map HNode.ptr) := by
    simp [lookupEntry, hl]
  have hlk := lookupEntry_spec w hle
  obtain ⟨e, he, hn, hk'⟩ := hlk.wf.copy (List.mem_of_mem_head? hf.symm)
  refine ⟨e, ?_, he, hn, hk'⟩
  have hfound := hlk.found
  rw [← hf] at hfound
  unfold GlobalData.resolve
  rw [hle, hfound]
  exact he

theorem GlobalData.Erased.resolve (w : g.Wf) {n : HNode} (h : Erased g key n g') :
    ∃ e, g.resolve key = some e ∧ g.entries n.ptr = some e ∧ e.node = n ∧ e.key = key := by
  obtain ⟨m, hm, -, -, hf⟩ := h.help
  exact resolve_of_help w hm hf

/-! ## Exact sizes -/

/-- A deletion of `key` takes a node of ht1, or one it has just migrated there. -/
def GlobalData.DeletesFromHt1 (g : GlobalData) (key : Bytes) : Prop :=
  g.db.DeletesFromHt1 (strHash key) (hasKey g.entries key)

instance (g : GlobalData) (key : Bytes) : Decidable (g.DeletesFromHt1 key) :=
  inferInstanceAs (Decidable (HMap.DeletesFromHt1 _ _ _))

/-- A `del` takes no node of ht2. -/
def ChargedDel (g : GlobalData) (cmd : List Bytes) : Prop :=
  ∀ key ∈ deletedKey cmd, g.DeletesFromHt1 key

/-- The TTL loop takes no node of ht2. -/
def ChargedExpiry (g : GlobalData) : Prop := ∀ key ∈ g.topKey, g.DeletesFromHt1 key

instance (g : GlobalData) (cmd : List Bytes) : Decidable (ChargedDel g cmd) :=
  inferInstanceAs (Decidable (∀ key ∈ _, _))

instance (g : GlobalData) : Decidable (ChargedExpiry g) :=
  inferInstanceAs (Decidable (∀ key ∈ _, _))

theorem GlobalData.Erased.exact (w : g.Wf) {n : HNode} (h : Erased g key n g')
    (hx : g.db.Exact) (hd : g.DeletesFromHt1 key) : g'.db.Exact := by
  obtain ⟨m, -, ⟨k, hk⟩, hr, hf⟩ := h.help
  refine hr.exact.mpr ⟨hk.exact.mpr hx, found_not_in_ht2 hk hd ?_⟩
  rw [hf]; exact (w.helped hk).found_eq key

theorem Change.exact (w : g.Wf) (h : Change ks g g') (hd : ∀ key ∈ ks.deleted, g.DeletesFromHt1 key)
    (hx : g.db.Exact) : g'.db.Exact := by
  cases h with
  | idle => exact hx
  | looked hk => exact hk.exact.mpr hx
  | @created g₁ _ _ _ _ h₁ hc _ _ hdb =>
    obtain ⟨k, hk⟩ := hc.helped
    have hx₁ : g₁.db.Exact := by
      rcases h₁ with ⟨rfl, -⟩ | ⟨hl, -⟩
      · exact hx
      · obtain ⟨j, hj⟩ := hl.helped
        exact hj.exact.mpr hx
    rw [hdb]
    exact hk.exact.mpr (hc.linked.exact hx₁)
  | erased hD he => exact he.exact w hx (hd _ hD)

/-- **Steps that take no node of ht2 keep the sizes exact.** -/
theorem serve_exact {lim : Limits} {ev : Event} (hi : g.Wf ∧ g.db.Exact)
    (hc : ev.Meets ChargedDel ChargedExpiry g) (h : serve lim g ev = .ok g') :
    g'.Wf ∧ g'.db.Exact :=
  serve_invariant (I := fun g => g.Wf ∧ g.db.Exact)
    (fun _ _ _ _ hi hc he => ⟨(he.change hi.1).wf hi.1, (he.change hi.1).exact hi.1 hc hi.2⟩)
    (fun _ _ hi hc he => ⟨(expireTop_change hi.1 he).wf hi.1,
      (expireTop_change hi.1 he).exact hi.1 hc hi.2⟩) hi hc h

/-- A request on ASCII arguments. -/
def ask (now : UInt64) (cmd : List String) : Event := .request now (cmd.map ascii)

end RedisServer
