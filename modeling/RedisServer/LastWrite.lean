import RedisServer.Keyspace

/-!
# The last write of a string key

`do_set` links a new entry in front of those that are stored under its key, and a lookup answers
the first one.  So a `get` answers the last `set` as long as the copies of the key stay in order.
A migration that moves a copy puts it in front of those that are in ht1 and behind those it moves
later: it reverses (`resize_answers_older_value`).

`HMap.KeepsOrder` is when a migration leaves the copies of a key in order, `copies_helped` that it
does then, `Created.copies` and `Erased.copies` what linking and unlinking do to them.
`get_answers_last_set` is the result about histories.
-/

set_option autoImplicit false

namespace RedisServer

open Runs GlobalData

/-- `hm_help_resizing` moves no node with this key past another one. -/
def HMap.KeepsOrder (m : HMap) (E : Store Entry) (key : Bytes) : Prop :=
  ∀ n ∈ m.ht2.nodes.take resizingWork, hasKey E key n →
    ∀ n' ∈ m.ht1.nodes ++ m.ht2.nodes.take resizingWork, hasKey E key n' → n = n'

instance (m : HMap) (E : Store Entry) (key : Bytes) : Decidable (m.KeepsOrder E key) :=
  inferInstanceAs (Decidable (∀ n ∈ _, _))

variable {g g' : GlobalData} {key k : Bytes} {now : UInt64}

/-- Reversing a block in front of another one changes nothing when all are equal. -/
theorem reverse_append_of_eq {α : Type} {A B : List α} (hnd : (B ++ A).Nodup)
    (h : ∀ a ∈ A, ∀ b ∈ B ++ A, a = b) : A.reverse ++ B = B ++ A := by
  cases A with
  | nil => simp
  | cons a A =>
    have hall : ∀ b ∈ B ++ a :: A, b = a := fun b hb => (h a List.mem_cons_self b hb).symm
    have hrep := List.eq_replicate_of_mem hall
    rw [hrep, List.nodup_replicate, List.length_append, List.length_cons] at hnd
    have hB : B = [] := List.eq_nil_of_length_eq_zero (by omega)
    have hA : A = [] := List.eq_nil_of_length_eq_zero (by omega)
    rw [hA, hB]; rfl

theorem GlobalData.Wf.filter_key (w : g.Wf) (key : Bytes) :
    g.copies key = (g.db.order.filter (cls (strHash key))).filter (hasKey g.entries key) := by
  unfold GlobalData.copies
  rw [List.filter_filter]
  apply List.filter_congr
  intro n hn
  cases hk : hasKey g.entries key n with
  | false => rfl
  | true => simp [cls_iff.mpr (w.hcode hn hk)]

/-- **A migration that passes no copy leaves the copies in order.** -/
theorem copies_helped (w : g.Wf) {db : HMap} {j : Nat} (h : HMap.Helped j g.db db)
    (ho : g.db.KeepsOrder g.entries key) :
    GlobalData.copies { g with db := db } key = g.copies key := by
  have hkept : ∀ q : HNode → Bool, (db.order.filter (cls (strHash key))).filter q =
      (((g.db.ht2.nodes.take j).filter (cls (strHash key))).filter q).reverse ++
        (g.db.ht1.nodes.filter (cls (strHash key))).filter q ++
        ((g.db.ht2.nodes.drop j).filter (cls (strHash key))).filter q := by
    intro q
    rw [HMap.order, List.filter_append, h.cls1, h.nodes2, List.filter_append, List.filter_append,
      List.filter_reverse]
  have hsplit : ∀ q : HNode → Bool, (g.db.order.filter (cls (strHash key))).filter q =
      (g.db.ht1.nodes.filter (cls (strHash key))).filter q ++
        ((g.db.ht2.nodes.take j).filter (cls (strHash key))).filter q ++
        ((g.db.ht2.nodes.drop j).filter (cls (strHash key))).filter q := by
    intro q
    rw [HMap.order, List.filter_append, List.filter_append, List.append_assoc]
    congr 1
    rw [← List.filter_append, ← List.filter_append, List.take_append_drop]
  have htake : ∀ n ∈ g.db.ht2.nodes.take j, n ∈ g.db.ht2.nodes.take resizingWork := fun n hn =>
    (List.take_sublist_take_left h.quota).subset hn
  rw [(w.helped h).filter_key, w.filter_key]
  show (db.order.filter _).filter (hasKey g.entries key) = _
  rw [hkept, hsplit, reverse_append_of_eq]
  · have hnd := w.shape.nodup_order
    have := (hnd.filter (cls (strHash key))).filter (hasKey g.entries key)
    rw [hsplit] at this
    exact (List.nodup_append'.mp this).1
  · intro a ha b hb
    obtain ⟨ha, hqa⟩ := List.mem_filter.mp ha
    have ha := (List.mem_filter.mp ha).1
    rcases List.mem_append.mp hb with hb | hb
    · obtain ⟨hb, hqb⟩ := List.mem_filter.mp hb
      exact ho a (htake a ha) hqa b (List.mem_append_left _ (List.mem_filter.mp hb).1) hqb
    · obtain ⟨hb, hqb⟩ := List.mem_filter.mp hb
      exact ho a (htake a ha) hqa b
        (List.mem_append_right _ (htake b (List.mem_filter.mp hb).1)) hqb

theorem copies_frame {E : Store Entry} (h : SameFrame g.entries E) (key : Bytes) :
    GlobalData.copies { g with entries := E } key = g.copies key := by
  unfold GlobalData.copies
  rw [h.hasKey]

theorem GlobalData.Looked.copies (w : g.Wf) {r : Option Ptr} (h : Looked g k g' r)
    (ho : g.db.KeepsOrder g.entries key) : g'.copies key = g.copies key := by
  obtain ⟨j, hj⟩ := h.helped
  rw [h.data]
  exact copies_helped w hj ho

theorem hasKey_write {E : Store Entry} {p : Ptr} {e : Entry} {n : HNode} :
    hasKey (E.write p e) key n = if n.ptr = p then decide (e.key = key) else hasKey E key n := by
  unfold hasKey
  by_cases h : n.ptr = p
  · rw [h]; simp
  · rw [Store.write_of_ne _ _ h, if_neg h]

theorem GlobalData.Wf.write_fresh (w : g.Wf) {e : Entry} :
    ∀ n ∈ g.db.order, hasKey (g.entries.write g.next e) key n = hasKey g.entries key n := by
  intro n hn
  rw [hasKey_write, if_neg]
  intro hp
  exact w.unlinked (hp ▸ List.mem_map_of_mem hn)

/-- The state between the linking of a new entry and the migration. -/
def linkedState (g : GlobalData) (m : HMap) (e : Entry) : GlobalData :=
  { g with db := m, entries := g.entries.write g.next e, next := g.next + 1 }

/-- A new entry becomes the first copy of its key. -/
theorem GlobalData.Created.copies (w : g.Wf) {e : Entry} {m : HMap} (h : Created g e m g')
    (ho : m.KeepsOrder (g.entries.write g.next e) key) :
    g'.copies key = if e.key = key then e.node :: g.copies key else g.copies key := by
  have wl : (linkedState g m e).Wf := w.create h.node h.linked.shape h.linked.perm
  obtain ⟨j, hj⟩ := h.helped
  have hg' : g'.copies key = (linkedState g m e).copies key := by
    rw [h.data]; exact copies_helped wl hj ho
  have hself : hasKey (g.entries.write g.next e) key e.node = decide (e.key = key) := by
    rw [hasKey_write, if_pos (by rw [h.node])]
  have hold : (g.db.order.filter (cls (strHash key))).filter (hasKey (g.entries.write g.next e) key) =
      (g.db.order.filter (cls (strHash key))).filter (hasKey g.entries key) :=
    List.filter_congr fun n hn => w.write_fresh n (List.mem_filter.mp hn).1
  rw [hg', wl.filter_key]
  show (m.order.filter _).filter (hasKey (g.entries.write g.next e) key) = _
  rw [h.linked.cls, List.filter_append, hold, ← w.filter_key]
  by_cases hk : e.key = key
  · have hc : cls (strHash key) e.node = true := cls_iff.mpr (by rw [h.node, hk])
    simp [hc, hself, hk]
  · rw [if_neg hk]
    have : ([e.node].filter (cls (strHash key))).filter
        (hasKey (g.entries.write g.next e) key) = [] := by
      rw [List.filter_filter]
      simp [hself, hk]
    rw [this, List.nil_append]

theorem GlobalData.Erased.copies (w : g.Wf) {n : HNode} (h : Erased g k n g')
    (ho : g.db.KeepsOrder g.entries key) :
    g'.copies key = (g.copies key).filter (· != n) := by
  obtain ⟨m, -, ⟨j, hj⟩, hr, -⟩ := h.help
  rw [← copies_helped w hj ho]
  unfold GlobalData.copies
  rw [h.frame.hasKey, hr.order, List.filter_filter, List.filter_filter]
  apply List.filter_congr
  intro x hx
  by_cases hxn : x = n
  · simp [hxn]
  · have hp : x.ptr ≠ n.ptr := fun hp =>
      hxn (List.inj_on_of_nodup_map hj.shape.nodup hx hr.mem hp)
    have : hasKey (g.entries.free n.ptr) key x = hasKey g.entries key x := by
      unfold hasKey; rw [Store.free_of_ne _ hp]
    rw [this, Bool.and_comm]

/-! ## Histories -/

/-- If there is a next map, its migration keeps the copies of `k` in order. -/
def NextKeepsOrder (E : Store Entry) (k : Bytes) : Res HMap → Prop
  | .ok m => m.KeepsOrder E k
  | .error _ => True

/-- Linking a new entry under `key` leaves the copies of `k` in order, also when it starts a
resize. -/
def GlobalData.LinkKeepsOrder (g : GlobalData) (key k : Bytes) : Prop :=
  NextKeepsOrder (g.entries.write g.next (newEntry g key [] 0 none)) k
    (hmLink g.db ⟨g.next, strHash key⟩)

/-- The same when `do_zadd` links an entry after a lookup that found none. -/
def AddKeepsOrder (key k : Bytes) : Res (GlobalData × Option Ptr) → Prop
  | .ok (g, none) => g.LinkKeepsOrder key k
  | _ => True

/-- No migration of the request passes a copy of `k`. -/
structure OrderlyRequest (k : Bytes) (g : GlobalData) (cmd : List Bytes) : Prop where
  help : (looksUp cmd).isSome → g.db.KeepsOrder g.entries k
  set : ∀ key ∈ setKey cmd, g.LinkKeepsOrder key k
  zadd : ∀ key ∈ zaddKey cmd, AddKeepsOrder key k (lookupEntry g key)

/-- No migration of an iteration of the TTL loop passes a copy of `k`. -/
def OrderlyExpiry (k : Bytes) (g : GlobalData) : Prop := g.db.KeepsOrder g.entries k

/-- The request does not write `k`. -/
structure SparesRequest (k : Bytes) (cmd : List Bytes) : Prop where
  set : k ∉ setKey cmd
  zadd : k ∉ zaddKey cmd
  del : k ∉ deletedKey cmd

instance (E : Store Entry) (k : Bytes) : (r : Res HMap) → Decidable (NextKeepsOrder E k r)
  | .ok m => inferInstanceAs (Decidable (m.KeepsOrder E k))
  | .error _ => .isTrue trivial

instance (g : GlobalData) (key k : Bytes) : Decidable (g.LinkKeepsOrder key k) :=
  inferInstanceAs (Decidable (NextKeepsOrder _ _ _))

instance (key k : Bytes) : (r : Res (GlobalData × Option Ptr)) → Decidable (AddKeepsOrder key k r)
  | .ok (g, none) => inferInstanceAs (Decidable (g.LinkKeepsOrder key k))
  | .ok (_, some _) => .isTrue trivial
  | .error _ => .isTrue trivial

instance (k : Bytes) (g : GlobalData) (cmd : List Bytes) : Decidable (OrderlyRequest k g cmd) :=
  decidable_of_iff (((looksUp cmd).isSome → g.db.KeepsOrder g.entries k) ∧
      (∀ key ∈ setKey cmd, g.LinkKeepsOrder key k) ∧
      ∀ key ∈ zaddKey cmd, AddKeepsOrder key k (lookupEntry g key))
    ⟨fun h => ⟨h.1, h.2.1, h.2.2⟩, fun h => ⟨h.help, h.set, h.zadd⟩⟩

instance (k : Bytes) (g : GlobalData) : Decidable (OrderlyExpiry k g) :=
  inferInstanceAs (Decidable (HMap.KeepsOrder _ _ _))

instance (k : Bytes) (cmd : List Bytes) : Decidable (SparesRequest k cmd) :=
  decidable_of_iff (k ∉ setKey cmd ∧ k ∉ zaddKey cmd ∧ k ∉ deletedKey cmd)
    ⟨fun h => ⟨h.1, h.2.1, h.2.2⟩, fun h => ⟨h.set, h.zadd, h.del⟩⟩

/-- The first copy of `k` holds `v`. -/
def GlobalData.Holds (g : GlobalData) (k v : Bytes) : Prop :=
  ∃ n rest e, g.copies k = n :: rest ∧ g.entries n.ptr = some e ∧ e.val = v

variable {v : Bytes}

theorem GlobalData.Holds.frame {E : Store Entry} (h : g.Holds k v) (hf : SameFrame g.entries E) :
    Holds { g with entries := E } k v := by
  obtain ⟨n, rest, e, hc, he, hv⟩ := h
  obtain ⟨e', he', hfe⟩ := hf.after he
  exact ⟨n, rest, e', by rw [copies_frame hf]; exact hc, he', (Entry.frame_eq hfe).2.2.1.trans hv⟩

theorem GlobalData.Looked.holds (w : g.Wf) {r : Option Ptr} (hl : Looked g key g' r)
    (ho : g.db.KeepsOrder g.entries k) (h : g.Holds k v) : g'.Holds k v := by
  obtain ⟨n, rest, e, hc, he, hv⟩ := h
  exact ⟨n, rest, e, by rw [hl.copies w ho]; exact hc, by rw [hl.entries]; exact he, hv⟩

theorem hasKey_write_congr {E : Store Entry} {p : Ptr} {e e' : Entry} (h : e.key = e'.key) :
    hasKey (E.write p e) k = hasKey (E.write p e') k := by
  funext n
  rw [hasKey_write, hasKey_write, h]

theorem GlobalData.Created.keepsOrder {e : Entry} {m : HMap} (h : Created g e m g')
    (ho : g.LinkKeepsOrder e.key k) : m.KeepsOrder (g.entries.write g.next e) k := by
  unfold GlobalData.LinkKeepsOrder at ho
  rw [← h.node, h.link] at ho
  unfold NextKeepsOrder at ho
  have hk : hasKey (g.entries.write g.next e) k =
      hasKey (g.entries.write g.next (newEntry g e.key [] 0 none)) k := hasKey_write_congr rfl
  unfold HMap.KeepsOrder
  rw [hk]
  exact ho

theorem GlobalData.Created.holds (w : g.Wf) {e : Entry} {m : HMap} (hc : Created g e m g')
    (ho : g.LinkKeepsOrder e.key k) (hk : e.key ≠ k) (h : g.Holds k v) : g'.Holds k v := by
  obtain ⟨n, rest, e', hcop, he, hv⟩ := h
  refine ⟨n, rest, e', ?_, ?_, hv⟩
  · rw [hc.copies w (hc.keepsOrder ho), if_neg hk, hcop]
  · have hne : n.ptr ≠ g.next := by
      intro hp
      rw [hp, w.fresh _ (Nat.le_refl _)] at he; cases he
    rw [hc.data]
    exact (Store.write_of_ne _ _ hne).trans he

theorem GlobalData.Erased.holds (w : g.Wf) {n : HNode} (hr : Erased g key n g')
    (ho : g.db.KeepsOrder g.entries k) (hk : key ≠ k) (h : g.Holds k v) : g'.Holds k v := by
  obtain ⟨x, rest, e, hcop, he, hv⟩ := h
  obtain ⟨e₁, -, he₁, -, hkey⟩ := hr.resolve w
  have hnot : n ∉ g.copies k := by
    intro hn
    obtain ⟨e₂, he₂, -, hk₂⟩ := w.copy hn
    rw [he₁] at he₂; cases he₂
    exact hk (hkey.symm.trans hk₂)
  have hp : x.ptr ≠ n.ptr := by
    intro hp
    have hx : x ∈ g.copies k := by rw [hcop]; exact List.mem_cons_self
    obtain ⟨e₂, he₂, -, hk₂⟩ := w.copy hx
    rw [hp, he₁] at he₂; cases he₂
    exact hk (hkey.symm.trans hk₂)
  obtain ⟨e', he', hf⟩ := hr.frame.after ((Store.free_of_ne _ hp).trans he)
  refine ⟨x, rest, e', ?_, he', (Entry.frame_eq hf).2.2.1.trans hv⟩
  rw [hr.copies w ho, filter_bne_of_notMem hnot, hcop]

/-- A `set` makes its value the one that is found. -/
theorem holds_stored (w : g.Wf) {p : Ptr} (hi : insertEntry g k v 0 none = .ok (g', p))
    (ho : g.LinkKeepsOrder k k) : g'.Holds k v := by
  obtain ⟨-, m, hc⟩ := insertEntry_spec w hi
  refine ⟨(newEntry g k v 0 none).node, g.copies k, newEntry g k v 0 none, ?_, ?_, rfl⟩
  · rw [hc.copies w (hc.keepsOrder ho)]; exact if_pos rfl
  · rw [hc.data]; exact Store.write_self _ _ _

theorem Effect.holds {cmd : List Bytes} (w : g.Wf) (ho : OrderlyRequest k g cmd)
    (hs : SparesRequest k cmd) (he : Effect now g cmd g') (h : g.Holds k v) : g'.Holds k v := by
  cases he with
  | idle => exact h
  | looked hk hl => exact (lookupEntry_spec w hl).holds w (ho.help (by simp [hk])) h
  | ranked z hk hl hp hz =>
    exact ((lookupEntry_spec w hl).holds w (ho.help (by simp [hk])) h).frame
      (.write hp (frame_zset z hz))
  | timed hint hl ht =>
    have hh := (lookupEntry_spec w hl).holds w (ho.help (by simp [looksUp, hint])) h
    obtain ⟨hr, hg⟩ := entrySetTtl_ok ht
    obtain ⟨n, rest, e, hc, hen, hv⟩ := hh.frame hr.sameFrame
    rw [hg]
    exact ⟨n, rest, e, hc, hen, hv⟩
  | @stored key val g' p hi =>
    obtain ⟨-, m, hc⟩ := insertEntry_spec w hi
    exact hc.holds w (ho.set key (by simp)) (fun hk => hs.set (by simp [← hk, newEntry])) h
  | @added key s name score g₁ g₂ p e z hstod hl hi hp =>
    have hlk := lookupEntry_spec w hl
    obtain ⟨rfl, m, hc⟩ := insertEntry_spec hlk.wf hi
    have hz : e.zset.isSome := by
      rw [hc.data] at hp
      simp only [Store.write_self, Option.some.injEq] at hp
      rw [← hp]; rfl
    have h₁ := hlk.holds w (ho.help (by simp [looksUp, hstod, Except.toOption])) h
    have ho₁ : g₁.LinkKeepsOrder key k := by simpa [hl, AddKeepsOrder] using ho.zadd key (by simp)
    have h₂ := hc.holds hlk.wf ho₁
      (fun hk => hs.zadd (by simp [← hk, newEntry])) h₁
    exact h₂.frame (.write hp (frame_zset z hz))
  | @missed key db hd =>
    obtain ⟨m, j, -, hj, -, rfl⟩ := delete_spec w hd
    obtain ⟨n, rest, e, hc, hen, hv⟩ := h
    exact ⟨n, rest, e, by rw [copies_helped w hj (ho.help (by simp [looksUp]))]; exact hc, hen, hv⟩
  | @deleted key db n g' hd hde =>
    exact (deleted_spec w hd hde).1.holds w (ho.help (by simp [looksUp]))
      (fun hk => hs.del (by simp [← hk])) h

theorem expireTop_holds (w : g.Wf) (ho : OrderlyExpiry k g) (hs : k ∉ g.topKey)
    (he : expireTop g = .ok g') (h : g.Holds k v) : g'.Holds k v := by
  obtain ⟨top, e, n, htop, hent, -, her⟩ := expireTop_spec w he
  rw [← List.head?_eq_getElem?] at htop
  refine her.holds w ho (fun hk => hs ?_) h
  simp [GlobalData.topKey, htop, hent, hk]

theorem serve_holds {lim : Limits} {ev : Event} (hi : g.Wf ∧ g.Holds k v)
    (ho : ev.Meets (OrderlyRequest k) (OrderlyExpiry k) g)
    (hs : ev.Meets (fun _ => SparesRequest k) (fun g => k ∉ g.topKey) g)
    (h : serve lim g ev = .ok g') : g'.Wf ∧ g'.Holds k v := by
  refine serve_invariant (I := fun g => g.Wf ∧ g.Holds k v)
    (fun _ _ _ _ hi hc he => ⟨(he.change hi.1).wf hi.1, he.holds hi.1 hc.1 hc.2 hi.2⟩)
    (fun _ _ hi hc he => ⟨(expireTop_change hi.1 he).wf hi.1,
      expireTop_holds hi.1 hc.1 hc.2 he hi.2⟩) hi (ho.and hs) h

/-- A `get` of a key whose first copy holds `v` answers `v`. -/
theorem get_holds {lim : Limits} {out : Bytes} (w : g.Wf) (hx : g.db.Exact)
    (ho : g.db.KeepsOrder g.entries k) (hv : v.length ≤ maxMsg) (h : g.Holds k v) :
    ∃ g', doRequest lim now g [ascii "get", k] out = .ok (g', .RES_OK, outStr out v) := by
  obtain ⟨g', r, hl, hlk, -⟩ := lookupEntry_total w hx k
  obtain ⟨n, rest, e, hc, hen, hval⟩ := hlk.holds w ho h
  have hr := hlk.found
  rw [hc] at hr
  refine ⟨g', ?_⟩
  have hget : doRequest lim now g [ascii "get", k] out = doGet g [ascii "get", k] out := rfl
  rw [hget]
  unfold doGet
  rw [bind_arg k rfl]
  simp [hl, hr, Store.read_of hen, hval, hv]

/-- **The last `set` wins.** Let the history `pre` lead to `g₀`, `set k v` to `g₁` and `post` to
`g`; nothing in `post` writes `k`, and no expiry removes it.  If from the `set` to the `get` no
migration moves a copy of `k` past another one, and no deletion takes a node of ht2, then `get k`
answers `v`. -/
theorem get_answers_last_set (lim : Limits) (pre post : List Event) (t₀ t : UInt64) (k v : Bytes)
    (g₀ g₁ g : GlobalData) (hv : v.length ≤ maxMsg) (hpre : run (serve lim) {} pre = .ok g₀)
    (h₁ : serve lim g₀ (.request t₀ [ascii "set", k, v]) = .ok g₁)
    (hpost : run (serve lim) g₁ post = .ok g)
    (hspare : AllSteps (serve lim)
      (fun g ev => ev.Meets (fun _ => SparesRequest k) (fun g => k ∉ g.topKey) g) g₁ post)
    (horder : AllSteps (serve lim) (fun g ev => ev.Meets (OrderlyRequest k) (OrderlyExpiry k) g) g₀
      (.request t₀ [ascii "set", k, v] :: (post ++ [.request t [ascii "get", k]])))
    (hcharge : AllSteps (serve lim) (fun g ev => ev.Meets ChargedDel ChargedExpiry g) {}
      (pre ++ .request t₀ [ascii "set", k, v] :: post)) :
    ∃ g', doRequest lim t g [ascii "get", k] [] = .ok (g', .RES_OK, outStr [] v) := by
  obtain ⟨hset, horder⟩ := allSteps_cons.mp horder
  obtain ⟨horder, hget⟩ := allSteps_append.mp (horder g₁ h₁)
  have hsizes : g.Wf ∧ g.db.Exact :=
    run_invariant (I := fun g => g.Wf ∧ g.db.Exact) (fun _ _ _ hi hc h => serve_exact hi hc h)
      ⟨.empty, HMap.exact_empty⟩ hcharge
      (run_append_ok.mpr ⟨g₀, hpre, run_cons_ok.mpr ⟨g₁, h₁, hpost⟩⟩)
  have w₀ : g₀.Wf := run_invariant_all (fun _ _ _ w h => serve_wf _ _ _ w h) .empty hpre
  have h₁' : g₁.Wf ∧ g₁.Holds k v := by
    obtain ⟨code, out, hreq⟩ := serve_request.mp h₁
    have hreq : doSet g₀ [ascii "set", k, v] [] = .ok (g₁, code, out) := hreq
    unfold doSet at hreq
    rw [bind_arg k rfl, bind_arg v rfl] at hreq
    obtain ⟨⟨g₂, p⟩, hi, hreq⟩ := bind_ok.mp hreq
    cases hreq
    exact ⟨serve_wf _ _ _ w₀ h₁, holds_stored w₀ hi (hset.set k (by simp))⟩
  have hholds : g.Wf ∧ g.Holds k v :=
    run_invariant (I := fun g => g.Wf ∧ g.Holds k v)
      (C := fun g ev => ev.Meets (OrderlyRequest k) (OrderlyExpiry k) g ∧
        ev.Meets (fun _ => SparesRequest k) (fun g => k ∉ g.topKey) g)
      (fun _ _ _ hi hc h => serve_holds hi hc.1 hc.2 h) h₁' (horder.and hspare) hpost
  have hlast := (allSteps_cons.mp (hget g hpost)).1
  exact get_holds hsizes.1 hsizes.2 (hlast.help (by simp [looksUp])) hv hholds.2

/-- The state after two keys have been set. -/
def twoKeys : GlobalData :=
  (run (serve ⟨64, 0⟩) {} [ask 0 ["set", "k", "a"], ask 1 ["set", "j", "x"]]).toOption.getD {}

/-- The state after one of them has been set again. -/
def setAgain : GlobalData :=
  (serve ⟨64, 0⟩ twoKeys (ask 2 ["set", "k", "b"])).toOption.getD {}

theorem get_answers_last_set_again : ∃ g g', run (serve ⟨64, 0⟩) setAgain
    [ask 3 ["get", "k"], ask 4 ["zadd", "z", "1", "m"], .timers 5] = .ok g ∧
      doRequest ⟨64, 0⟩ 6 g [ascii "get", ascii "k"] [] =
        .ok (g', .RES_OK, outStr [] (ascii "b")) := by
  obtain ⟨g, hg⟩ := ok_of_isSome (x := run (serve ⟨64, 0⟩) setAgain
    [ask 3 ["get", "k"], ask 4 ["zadd", "z", "1", "m"], .timers 5]) (by decide +kernel)
  obtain ⟨g', hget⟩ := get_answers_last_set ⟨64, 0⟩
    [ask 0 ["set", "k", "a"], ask 1 ["set", "j", "x"]]
    [ask 3 ["get", "k"], ask 4 ["zadd", "z", "1", "m"], .timers 5] 2 6 (ascii "k") (ascii "b")
    twoKeys setAgain g (by decide +kernel) (ok_getD (by decide +kernel))
    (ok_getD (by decide +kernel)) hg (by decide +kernel) (by decide +kernel) (by decide +kernel)
  exact ⟨g, g', hg, hget⟩

/-- The 36th entry starts a resize; its migration reverses the chain of the key. -/
theorem resize_answers_older_value : ∃ g g', run (serve ⟨64, 0⟩) {}
    (List.replicate 35 (ask 0 ["set", "k", "a"]) ++ [ask 1 ["set", "k", "b"]]) = .ok g ∧
      doRequest ⟨64, 0⟩ 2 g [ascii "get", ascii "k"] [] =
        .ok (g', .RES_OK, outStr [] (ascii "a")) ∧ outStr [] (ascii "a") ≠ outStr [] (ascii "b") := by
  have hafter : answer ⟨64, 0⟩ 2 ((run (serve ⟨64, 0⟩) {}
      (List.replicate 35 (ask 0 ["set", "k", "a"]) ++
        [ask 1 ["set", "k", "b"]])).toOption.getD {}) [ascii "get", ascii "k"] =
      some (.RES_OK, outStr [] (ascii "a")) := by decide +kernel
  obtain ⟨g', hget⟩ := answer_eq_some.mp hafter
  exact ⟨_, g', ok_getD (by decide +kernel), hget, by decide +kernel⟩

end RedisServer
