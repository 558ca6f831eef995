import RedisServer.ResponseFormat
import RedisServer.Replies

/-!
# Does the client read what the server answers?

`do_keys` announces `hm_size` elements and then scans both tables.  `hm_delete` may leave the two
sizes wrong, but never so that `h_scan` passes over a table that still has nodes: `Scannable` is an
invariant of every history.

Results:
* `serve_scannable` — after every step a scan meets every linked node;
* `doRequest_value` — what each command writes when it reports `RES_OK`;
* `response_read_iff` — which of these the client's `on_response` takes whole.
-/

set_option autoImplicit false

namespace RedisServer

open Runs Buckets

/-! ## Scanning -/

/-- `h_scan` passes over a table of size 0. -/
def HMap.Scannable (m : HMap) : Prop := m.ht1.nodes ≠ [] → 0 < m.ht1.size

theorem HMap.Scannable.empty : HMap.Scannable {} := fun h => absurd rfl h

theorem HMap.Exact.scannable {m : HMap} (hs : m.Shape) (hx : m.Exact) : m.Scannable := by
  intro hne
  have hpos := List.length_pos_iff.mpr hne
  have htotal := hs.total
  unfold HMap.Exact at hx
  omega

theorem HMap.Helped.scannable {k : Nat} {m m' : HMap} (h : HMap.Helped k m m')
    (hs : m.Scannable) : m'.Scannable := by
  intro hne
  have hlen := h.length1
  have hsize := h.size1
  have hpos := List.length_pos_iff.mpr hne
  rcases Nat.eq_zero_or_pos k with rfl | hk
  · have := hs (List.length_pos_iff.mp (by omega))
    omega
  · omega

/-- The new node is counted, or ht1 is a new table. -/
theorem hmLink_scannable {m m' : HMap} {n : HNode} (h : hmLink m n = .ok m') : m'.Scannable := by
  obtain ⟨t, -, h⟩ := bind_ok.mp h
  obtain ⟨t', hins, h⟩ := bind_ok.mp h
  obtain ⟨c, -, hins⟩ := bind_ok.mp hins
  cases hins
  dsimp only at h
  split at h
  · obtain ⟨u, -, h⟩ := bind_ok.mp h
    obtain ⟨t₁, hinit, h⟩ := bind_ok.mp h
    obtain ⟨u, -, hinit⟩ := bind_ok.mp hinit
    cases hinit
    cases h
    exact fun hne => absurd (flatten_replicate_nil _) hne
  · cases h
    exact fun _ => Nat.succ_pos _

/-- `hm_delete` takes the node out of `ht1.size`, wherever it was. -/
theorem hmDelete_size1 {m m' : HMap} {h : UInt64} {eq : HNode → Res Bool} {n : HNode}
    (hd : hmDelete m h eq = .ok (m', some n)) :
    ∃ m₁, hmHelpResizing m = .ok m₁ ∧ m'.ht1.size = sizeDec m₁.ht1.size := by
  obtain ⟨m₁, h₁, hd⟩ := bind_ok.mp hd
  refine ⟨m₁, h₁, ?_⟩
  obtain ⟨r₁, -, hd⟩ := bind_ok.mp hd
  cases r₁ with
  | some frm =>
    obtain ⟨⟨node, t⟩, hdet, hd⟩ := bind_ok.mp hd
    obtain ⟨⟨node', t'⟩, hun, hdet⟩ := bind_ok.mp hdet
    obtain ⟨c, -, hun⟩ := bind_ok.mp hun
    cases hdet
    cases hd
    split at hun
    · cases hun
    · cases hun
      rfl
  | none =>
    obtain ⟨r₂, -, hd⟩ := bind_ok.mp hd
    cases r₂ with
    | some frm =>
      obtain ⟨⟨node, t⟩, -, hd⟩ := bind_ok.mp hd
      cases hd
      rfl
    | none => cases hd

/-- After a deletion ht1 counts nodes that `hm_help_resizing` has just moved, or is the only
table. -/
theorem hmDelete_scannable {m m' : HMap} (hs : m.Shape) {h : UInt64} {eq : HNode → Res Bool}
    {p : HNode → Bool} (he : ∀ n ∈ m.order, n.hcode = h → eq n = .ok (p n)) {n : HNode}
    (hd : hmDelete m h eq = .ok (m', some n)) : m'.Scannable := by
  obtain ⟨m₁, h₁, hsize⟩ := hmDelete_size1 hd
  obtain ⟨m₂, k, h₂, hk, -, hr⟩ := hmDelete_spec hs he hd
  cases h₁.symm.trans h₂
  have hr : HMap.Removed n m₁ m' := hr
  intro hne
  rcases hk.work with rfl | h2
  · have hmoved := hk.size1
    have hwork : resizingWork = 128 := rfl
    have := sizeDec_pos (by omega : 0 < m₁.ht1.size)
    omega
  · have hnone : m'.ht2.tab = none := by
      have hsome := hr.tab2
      rw [h2] at hsome
      exact Option.not_isSome_iff_eq_none.mp (by rw [hsome]; decide)
    have htot := hr.shape.total
    rw [HTab.nodes_none hnone, hr.shape.ok2.null hnone, List.length_nil] at htot
    have hpos := List.length_pos_iff.mpr hne
    omega

variable {g g' : GlobalData} {key : Bytes} {now : UInt64} {lim : Limits} {out : Bytes}

theorem lookupEntry_scannable (w : g.Wf) (hs : g.db.Scannable) {r : Option Ptr}
    (h : lookupEntry g key = .ok (g', r)) : g'.db.Scannable := by
  obtain ⟨k, hk⟩ := (lookupEntry_spec w h).helped
  exact hk.scannable hs

theorem insertEntry_scannable (w : g.Wf) {val : Bytes} {type : Nat} {zset : Option ZSet} {p : Ptr}
    (h : insertEntry g key val type zset = .ok (g', p)) : g'.db.Scannable := by
  obtain ⟨-, m, hc⟩ := insertEntry_spec w h
  obtain ⟨k, hk⟩ := hc.helped
  exact hk.scannable (hmLink_scannable hc.link)

theorem Effect.scannable {cmd : List Bytes} (w : g.Wf) (hs : g.db.Scannable)
    (h : Effect now g cmd g') : g'.db.Scannable := by
  cases h with
  | idle => exact hs
  | looked _ hl => exact lookupEntry_scannable w hs hl
  | ranked z _ hl _ _ =>
    have hs₁ := lookupEntry_scannable w hs hl
    exact hs₁
  | timed _ hl ht =>
    obtain ⟨-, hg⟩ := entrySetTtl_ok ht
    have hs₁ := lookupEntry_scannable w hs hl
    rw [hg]
    exact hs₁
  | stored hi => exact insertEntry_scannable w hi
  | added z _ hl hi _ =>
    have hs₂ := insertEntry_scannable (lookupEntry_spec w hl).wf hi
    exact hs₂
  | missed hd =>
    obtain ⟨m, k, -, hk, -, rfl⟩ := delete_spec w hd
    exact hk.scannable hs
  | deleted hd he =>
    obtain ⟨e, tp, -, rfl⟩ := entryDel_ok he
    exact hmDelete_scannable w.shape (w.eq_ok _) hd

theorem expireTop_scannable (w : g.Wf) (h : expireTop g = .ok g') : g'.db.Scannable := by
  obtain ⟨top, e, db, n, pos, E, a, tp, -, he, hd, -, -, -, rfl⟩ := expireTop_ok h
  rw [(w.stored _ _ he).2.2] at hd
  exact hmDelete_scannable w.shape (w.eq_ok _) hd

/-- **After every step** of a history a scan meets all linked nodes. -/
theorem serve_scannable (g : GlobalData) (ev : Event) (g' : GlobalData)
    (hi : g.Wf ∧ g.db.Scannable) (h : serve lim g ev = .ok g') : g'.Wf ∧ g'.db.Scannable :=
  serve_invariant (I := fun g => g.Wf ∧ g.db.Scannable)
    (fun _ _ _ _ hi _ he => ⟨(he.change hi.1).wf hi.1, he.scannable hi.1 hi.2⟩)
    (fun _ _ hi _ he => ⟨(expireTop_change hi.1 he).wf hi.1, expireTop_scannable hi.1 he⟩) hi
    (meets_true g ev) h

/-! ## What the handlers write -/

/-- The keys of the linked entries, in the order of a scan. -/
def GlobalData.storedKeys (g : GlobalData) : List Bytes :=
  g.db.order.filterMap fun n => (g.entries n.ptr).map Entry.key

/-- The length of the answer to `keys`. -/
def GlobalData.keysLength (g : GlobalData) : Nat :=
  5 + (g.storedKeys.map fun key => 5 + key.length).sum

theorem serialiseAll_append : ∀ (vs ws : List Value),
    serialiseAll (vs ++ ws) = serialiseAll vs ++ serialiseAll ws
  | [], ws => rfl
  | v :: vs, ws => by
    rw [List.cons_append, serialiseAll, serialiseAll_append vs ws, serialiseAll, List.append_assoc]

theorem allNoDouble_str : ∀ (keys : List Bytes), AllNoDouble (keys.map Value.str)
  | [] => trivial
  | _ :: keys => ⟨trivial, allNoDouble_str keys⟩

theorem serialiseAll_str_length : ∀ (keys : List Bytes),
    (serialiseAll (keys.map Value.str)).length = (keys.map fun key => 5 + key.length).sum
  | [] => rfl
  | key :: keys => by
    have hrest := serialiseAll_str_length keys
    have hkey : (Value.str key).serialise.length = 5 + key.length := by
      simp only [Value.serialise, outStr, List.nil_append, List.length_cons, List.length_append,
        le32_length]
    rw [List.map_cons, serialiseAll, List.length_append, hrest, hkey, List.map_cons, List.sum_cons]

theorem outStr_eq (out s : Bytes) : outStr out s = out ++ (Value.str s).serialise := by
  simp [Value.serialise, outStr]

theorem cbScan_eq {E : Store Entry} : ∀ {ns : List HNode} (out : Bytes),
    (∀ n ∈ ns, ∃ e, E n.ptr = some e) →
    cbScan E out ns = .ok (out ++
      serialiseAll ((ns.filterMap fun n => (E n.ptr).map Entry.key).map Value.str))
  | [], out, _ => by
    rw [cbScan, List.filterMap_nil, List.map_nil, serialiseAll, List.append_nil]
  | n :: ns, out, h => by
    obtain ⟨e, he⟩ := h n List.mem_cons_self
    rw [cbScan, Store.read_of he, ok_bind,
      cbScan_eq _ fun n hn => h n (List.mem_cons_of_mem _ hn),
      List.filterMap_cons_some (b := e.key) (by rw [he]; rfl), List.map_cons, serialiseAll,
      outStr_eq, List.append_assoc]

theorem foldl_outStr : ∀ (ks : List Bytes) (out : Bytes),
    ks.foldl outStr out = out ++ serialiseAll (ks.map Value.str)
  | [], out => (List.append_nil out).symm
  | key :: ks, out => by
    rw [List.foldl_cons, foldl_outStr ks, outStr_eq, List.append_assoc]
    rfl

/-- **`do_keys`** answers an array of all keys. -/
theorem doKeys_eq (w : g.Wf) (hs : g.db.Scannable) (cmd : List Bytes) (out : Bytes) :
    doKeys g cmd out = .ok (g, .RES_OK,
      outArr out g.db.order.length ++ serialiseAll (g.storedKeys.map Value.str)) := by
  have hs2 : g.db.ht2.nodes ≠ [] → 0 < g.db.ht2.size := fun hne =>
    Nat.lt_of_lt_of_le (List.length_pos_iff.mpr hne) w.shape.drift
  have hlive : ∀ n ∈ g.db.order, ∃ e, g.entries n.ptr = some e := by
    intro n hn
    obtain ⟨e, he, -⟩ := w.linked n hn
    exact ⟨e, he⟩
  have hcount : hmSize g.db = g.db.order.length := by
    rw [HMap.order, List.length_append]
    exact w.shape.total
  rw [doKeys, hScan_ok w.shape.ok1 hs, ok_bind,
    cbScan_eq _ fun n hn => hlive n (List.mem_append_left _ hn), ok_bind,
    hScan_ok w.shape.ok2 hs2, ok_bind, cbScan_eq _ fun n hn => hlive n (List.mem_append_right _ hn),
    ok_bind, List.append_assoc, ← serialiseAll_append, ← List.map_append, ← List.filterMap_append,
    hcount]
  rfl

/-- A `filterMap` that leaves nothing out. -/
theorem map_some_filterMap {α β : Type} {f : α → Option β} : ∀ {l : List α},
    (∀ a ∈ l, ∃ b, f a = some b) → (l.filterMap f).map some = l.map f
  | [], _ => rfl
  | a :: l, h => by
    obtain ⟨b, hb⟩ := h a List.mem_cons_self
    rw [List.filterMap_cons_some hb, List.map_cons, List.map_cons,
      map_some_filterMap fun x hx => h x (List.mem_cons_of_mem _ hx), hb]

/-- Each linked node has its key in the list. -/
theorem GlobalData.Wf.storedKeys (w : g.Wf) :
    g.storedKeys.map some = g.db.order.map fun n => (g.entries n.ptr).map Entry.key := by
  apply map_some_filterMap
  intro n hn
  obtain ⟨e, he, -⟩ := w.linked n hn
  exact ⟨e.key, by rw [he]; rfl⟩

theorem GlobalData.Wf.storedKeys_length (w : g.Wf) : g.storedKeys.length = g.db.order.length := by
  have h := congrArg List.length w.storedKeys
  rwa [List.length_map, List.length_map] at h

theorem doKeys_value (w : g.Wf) (hs : g.db.Scannable) {cmd : List Bytes} {code : ResCode}
    (h : doKeys g cmd [] = .ok (g', code, out)) :
    out = (Value.arr (g.storedKeys.map Value.str)).serialise := by
  have hlen : (g.storedKeys.map Value.str).length = g.db.order.length := by
    rw [List.length_map, w.storedKeys_length]
  rw [doKeys_eq w hs] at h
  cases h
  rw [Value.serialise, hlen]

/-- What an answered request may have written. -/
inductive Answered (g : GlobalData) : List Bytes → Bytes → Prop where
  | keys : Answered g [ascii "keys"] (Value.arr (g.storedKeys.map Value.str)).serialise
  | value {cmd : List Bytes} (v : Value) : cmd ≠ [ascii "keys"] →
      cmd.head? ≠ some (ascii "zscore") → cmd.head? ≠ some (ascii "zquery") → v.NoDouble →
      v.serialise.length < 2 ^ 31 → Answered g cmd v.serialise
  | score (args : List Bytes) (d : Dbl) : Answered g (ascii "zscore" :: args) (outDbl [] d)
  | nothing (args : List Bytes) : Answered g (ascii "zquery" :: args) []
  | members (args : List Bytes) (name rest : Bytes) : rest ≠ [] →
      Answered g (ascii "zquery" :: args) (outStr [] name ++ rest)

/-- Seven commands answer an integer. -/
theorem Answered.int {cmd : List Bytes} (name : String)
    (hname : name ∈ ["set", "del", "zadd", "zrem", "expire", "ttl"])
    (hcmd : cmd.head? = some (ascii name)) {i : Int} (h : out = outInt [] i) : Answered g cmd out := by
  have hv : (Value.int i).serialise.length < 2 ^ 31 := by simp [Value.serialise, outInt, be64]
  rw [h]
  simp only [List.mem_cons, List.not_mem_nil, or_false] at hname
  have hne : ascii name ≠ ascii "keys" ∧ ascii name ≠ ascii "zscore" ∧
      ascii name ≠ ascii "zquery" := by
    rcases hname with rfl | rfl | rfl | rfl | rfl | rfl <;> decide
  refine .value (.int i) ?_ ?_ ?_ trivial hv
  · intro hk
    rw [hk] at hcmd
    exact hne.1 (Option.some.inj hcmd).symm
  · intro hz
    exact hne.2.1 (Option.some.inj (hcmd.symm.trans hz))
  · intro hz
    exact hne.2.2 (Option.some.inj (hcmd.symm.trans hz))

theorem doGet_answered (h : doGet g [ascii "get", key] [] = .ok (g', .RES_OK, out)) :
    Answered g [ascii "get", key] out := by
  unfold doGet at h
  rw [bind_arg key rfl] at h
  obtain ⟨⟨g₁, r⟩, -, h⟩ := bind_ok.mp h
  cases r with
  | none => cases h
  | some p =>
    obtain ⟨e, -, h⟩ := bind_ok.mp h
    obtain ⟨u, hle, h⟩ := bind_ok.mp h
    have hle := of_decide_eq_true (assert_ok.mp hle)
    cases h
    have hname : ∀ c : String, ascii "get" ≠ ascii c → [ascii "get", key].head? ≠ some (ascii c) :=
      fun c hne heq => hne (Option.some.inj heq)
    refine .value (.str e.val) (by simp) (hname _ (by decide)) (hname _ (by decide)) trivial ?_
    have : maxMsg = 4096 := rfl
    simp [Value.serialise, outStr]
    omega

theorem doSet_answered {key val : Bytes}
    (h : doSet g [ascii "set", key, val] [] = .ok (g', .RES_OK, out)) :
    Answered g [ascii "set", key, val] out := by
  unfold doSet at h
  obtain ⟨k, -, h⟩ := bind_ok.mp h
  obtain ⟨v, -, h⟩ := bind_ok.mp h
  obtain ⟨r, -, h⟩ := bind_ok.mp h
  cases h
  exact .int "set" (by simp) rfl rfl

theorem doDel_answered {key : Bytes} (h : doDel g [ascii "del", key] [] = .ok (g', .RES_OK, out)) :
    Answered g [ascii "del", key] out := by
  unfold doDel at h
  obtain ⟨k, -, h⟩ := bind_ok.mp h
  obtain ⟨⟨db, r⟩, -, h⟩ := bind_ok.mp h
  cases r with
  | none => cases h; exact .int "del" (by simp) rfl rfl
  | some n =>
    obtain ⟨g₁, -, h⟩ := bind_ok.mp h
    cases h
    exact .int "del" (by simp) rfl rfl

theorem doZadd_answered {args : List Bytes}
    (h : doZadd lim g (ascii "zadd" :: args) [] = .ok (g', .RES_OK, out)) :
    Answered g (ascii "zadd" :: args) out := by
  unfold doZadd at h
  split at h
  · cases h
  · obtain ⟨s, -, h⟩ := bind_ok.mp h
    obtain ⟨score, -, h⟩ := bind_ok.mp h
    obtain ⟨name, -, h⟩ := bind_ok.mp h
    obtain ⟨key, -, h⟩ := bind_ok.mp h
    obtain ⟨⟨g₁, r⟩, -, h⟩ := bind_ok.mp h
    obtain ⟨⟨g₂, p⟩, -, h⟩ := bind_ok.mp h
    obtain ⟨e, -, h⟩ := bind_ok.mp h
    obtain ⟨z, -, h⟩ := bind_ok.mp h
    obtain ⟨⟨z', added⟩, -, h⟩ := bind_ok.mp h
    cases h
    exact .int "zadd" (by simp) rfl rfl

theorem doZscore_answered {args : List Bytes}
    (h : doZscore g (ascii "zscore" :: args) [] = .ok (g', .RES_OK, out)) :
    Answered g (ascii "zscore" :: args) out := by
  unfold doZscore at h
  split at h
  · cases h
  obtain ⟨k, -, h⟩ := bind_ok.mp h
  obtain ⟨⟨g₁, r⟩, -, h⟩ := bind_ok.mp h
  cases r with
  | none => cases h
  | some p =>
    obtain ⟨e, -, h⟩ := bind_ok.mp h
    split at h
    · cases h
    · obtain ⟨z, -, h⟩ := bind_ok.mp h
      obtain ⟨name, -, h⟩ := bind_ok.mp h
      obtain ⟨⟨z', r⟩, -, h⟩ := bind_ok.mp h
      cases r with
      | none => cases h
      | some zn =>
        obtain ⟨n, -, h⟩ := bind_ok.mp h
        cases h
        exact .score args n.score

theorem doZrem_answered {args : List Bytes}
    (h : doZrem lim g (ascii "zrem" :: args) [] = .ok (g', .RES_OK, out)) :
    Answered g (ascii "zrem" :: args) out := by
  unfold doZrem at h
  split at h
  · cases h
  obtain ⟨k, -, h⟩ := bind_ok.mp h
  obtain ⟨⟨g₁, r⟩, -, h⟩ := bind_ok.mp h
  cases r with
  | none => cases h; exact .int "zrem" (by simp) rfl rfl
  | some p =>
    obtain ⟨e, -, h⟩ := bind_ok.mp h
    split at h
    · cases h; exact .int "zrem" (by simp) rfl rfl
    · obtain ⟨z, -, h⟩ := bind_ok.mp h
      obtain ⟨name, -, h⟩ := bind_ok.mp h
      obtain ⟨⟨z', r⟩, -, h⟩ := bind_ok.mp h
      cases r with
      | none => cases h; exact .int "zrem" (by simp) rfl rfl
      | some zn => cases h; exact .int "zrem" (by simp) rfl rfl

theorem queryLoop_prefix {zset : ZSet} {limit : Nat} : ∀ {fuel : Nat} {z : Option Ptr} {n : Nat}
    {out out' : Bytes}, queryLoop lim zset limit fuel z n out = .ok out' → out <+: out'
  | 0, _, _, _, _, h => by cases h
  | fuel + 1, none, _, out, _, h => by
    cases h
    exact List.prefix_rfl
  | fuel + 1, some z, n, out, out', h => by
    rw [queryLoop] at h
    split at h
    · obtain ⟨node, -, h⟩ := bind_ok.mp h
      obtain ⟨next, -, h⟩ := bind_ok.mp h
      have hp := queryLoop_prefix h
      refine List.IsPrefix.trans ?_ hp
      rw [outDbl, outStr, List.append_assoc, List.append_assoc]
      exact List.prefix_append _ _
    · cases h
      exact List.prefix_rfl

theorem queryLoop_answered {zset : ZSet} {limit fuel : Nat} {z : Option Ptr} {args : List Bytes}
    (h : queryLoop lim zset limit fuel z 0 [] = .ok out) :
    Answered g (ascii "zquery" :: args) out := by
  cases fuel with
  | zero => cases h
  | succ fuel =>
    cases z with
    | none =>
      cases h
      exact .nothing args
    | some z =>
      rw [queryLoop] at h
      split at h
      · obtain ⟨node, -, h⟩ := bind_ok.mp h
        obtain ⟨next, -, h⟩ := bind_ok.mp h
        obtain ⟨rest, hrest⟩ := queryLoop_prefix h
        rw [← hrest, outDbl, List.append_assoc]
        exact .members args node.name _ (by simp)
      · cases h
        exact .nothing args

theorem doQuery_answered {args : List Bytes}
    (h : doQuery lim g (ascii "zquery" :: args) [] = .ok (g', .RES_OK, out)) :
    Answered g (ascii "zquery" :: args) out := by
  unfold doQuery at h
  split at h
  · cases h
  obtain ⟨k, -, h⟩ := bind_ok.mp h
  obtain ⟨⟨g₁, r⟩, -, h⟩ := bind_ok.mp h
  cases r with
  | none => cases h
  | some p =>
    obtain ⟨e, -, h⟩ := bind_ok.mp h
    split at h
    · cases h
    · obtain ⟨s, -, h⟩ := bind_ok.mp h
      obtain ⟨score, -, h⟩ := bind_ok.mp h
      obtain ⟨name, -, h⟩ := bind_ok.mp h
      obtain ⟨a₁, -, h⟩ := bind_ok.mp h
      obtain ⟨offset, -, h⟩ := bind_ok.mp h
      obtain ⟨a₂, -, h⟩ := bind_ok.mp h
      obtain ⟨limit, -, h⟩ := bind_ok.mp h
      obtain ⟨z, -, h⟩ := bind_ok.mp h
      obtain ⟨n₁, -, h⟩ := bind_ok.mp h
      obtain ⟨n₂, -, h⟩ := bind_ok.mp h
      obtain ⟨o, hloop, h⟩ := bind_ok.mp h
      cases h
      exact queryLoop_answered hloop

theorem doExpire_answered {key s : Bytes}
    (h : doExpire g now [ascii "expire", key, s] [] = .ok (g', .RES_OK, out)) :
    Answered g [ascii "expire", key, s] out := by
  unfold doExpire at h
  obtain ⟨a, -, h⟩ := bind_ok.mp h
  cases ht : str2int a with
  | none => rw [ht] at h; cases h
  | some ttlMs =>
    rw [ht] at h
    obtain ⟨k, -, h⟩ := bind_ok.mp h
    obtain ⟨⟨g₁, r⟩, -, h⟩ := bind_ok.mp h
    cases r with
    | none => cases h; exact .int "expire" (by simp) rfl rfl
    | some p =>
      obtain ⟨g₂, -, h⟩ := bind_ok.mp h
      cases h
      exact .int "expire" (by simp) rfl rfl

theorem doTtl_answered {key : Bytes}
    (h : doTtl g now [ascii "ttl", key] [] = .ok (g', .RES_OK, out)) :
    Answered g [ascii "ttl", key] out := by
  unfold doTtl at h
  obtain ⟨k, -, h⟩ := bind_ok.mp h
  obtain ⟨⟨g₁, r⟩, -, h⟩ := bind_ok.mp h
  cases r with
  | none => cases h; exact .int "ttl" (by simp) rfl rfl
  | some p =>
    obtain ⟨e, -, h⟩ := bind_ok.mp h
    split at h
    · cases h; exact .int "ttl" (by simp) rfl rfl
    · obtain ⟨x, -, h⟩ := bind_ok.mp h
      cases h
      exact .int "ttl" (by simp) rfl rfl

theorem doRequest_answered (w : g.Wf) (hs : g.db.Scannable) {cmd : List Bytes}
    (h : doRequest lim now g cmd [] = .ok (g', .RES_OK, out)) : Answered g cmd out := by
  revert h
  refine doRequest_cases
    (motive := fun cmd r => r = .ok (g', .RES_OK, out) → Answered g cmd out)
    ?keys ?get ?set ?del ?zadd ?zscore ?zrem ?zquery ?expire ?ttl ?unknown cmd
  case keys =>
    intro h
    rw [doKeys_value w hs h]
    exact .keys
  case get => exact fun _ => doGet_answered
  case set => exact fun _ _ => doSet_answered
  case del => exact fun _ => doDel_answered
  case zadd => exact fun _ => doZadd_answered
  case zscore => exact fun _ => doZscore_answered
  case zrem => exact fun _ => doZrem_answered
  case zquery => exact fun _ => doQuery_answered
  case expire => exact fun _ _ => doExpire_answered
  case ttl => exact fun _ => doTtl_answered
  case unknown =>
    intro cmd _ h
    cases h

/-! ## What the client reads -/

/-- `out` is one complete value, and `on_response` takes all of it. -/
def ReadWhole (out : Bytes) : Prop :=
  (∃ v : Value, out = v.serialise) ∧ readResponse out = .ok (out.length : Nat)

/-- No command that answers doubles; and the answer to `keys` is shorter than `2 ^ 31`. -/
def Readable (g : GlobalData) (cmd : List Bytes) : Prop :=
  cmd.head? ≠ some (ascii "zscore") ∧ cmd.head? ≠ some (ascii "zquery") ∧
    (cmd = [ascii "keys"] → g.keysLength < 2 ^ 31)

theorem keys_serialise_length (keys : List Bytes) :
    (Value.arr (keys.map Value.str)).serialise.length =
      5 + (keys.map fun key => 5 + key.length).sum := by
  rw [Value.serialise, List.length_append, serialiseAll_str_length]
  simp [outArr]

/-- **Encoder and decoder agree**: in every state a history leads to, what a request reported as
`RES_OK` has written is one value that the client's `on_response` takes whole, if and only if the
command is neither `zscore` nor `zquery` and the answer to `keys` is not too long. -/
theorem response_read_iff {history : List Event} (hr : run (serve lim) {} history = .ok g)
    {cmd : List Bytes} (h : doRequest lim now g cmd [] = .ok (g', .RES_OK, out)) :
    ReadWhole out ↔ Readable g cmd := by
  have hi : g.Wf ∧ g.db.Scannable :=
    run_invariant_all serve_scannable ⟨.empty, .empty⟩ hr
  cases doRequest_answered hi.1 hi.2 h with
  | keys =>
    have hlen := keys_serialise_length g.storedKeys
    constructor
    · rintro ⟨-, hread⟩
      refine ⟨by decide, by decide, ?_⟩
      intro _
      by_contra hlong
      refine readResponse_long ?_ hread
      rw [hlen]
      exact Nat.not_lt.mp hlong
    · rintro ⟨-, -, hshort⟩
      refine ⟨⟨_, rfl⟩, readResponse_serialise (allNoDouble_str _) ?_⟩
      rw [hlen]
      exact hshort rfl
  | value v hk hz hq hd hlt =>
    exact iff_of_true ⟨⟨v, rfl⟩, readResponse_serialise hd hlt⟩ ⟨hz, hq, fun heq => absurd heq hk⟩
  | score args d =>
    refine iff_of_false ?_ fun hw => hw.1 rfl
    intro hw
    rw [ReadWhole, readResponse_dbl] at hw
    cases hw.2
  | nothing args =>
    refine iff_of_false ?_ fun hw => hw.2.1 rfl
    intro hw
    cases hw.2
  | members args name rest hrest =>
    exact iff_of_false (fun hw => readResponse_str_append name hrest hw.2) fun hw => hw.2.1 rfl

/-- The answer to `cmd` after a history. -/
theorem answer_after {history : List Event} {cmd : List Bytes} {r : ResCode × Bytes}
    (h : ((run (serve lim) {} history >>= fun g => doRequest lim now g cmd []).toOption.map
      Prod.snd) = some r) :
    ∃ g g', run (serve lim) {} history = .ok g ∧ doRequest lim now g cmd [] = .ok (g', r) := by
  obtain ⟨⟨g', r⟩, hx, rfl⟩ := ok_of_map h
  obtain ⟨g, hr, hreq⟩ := bind_ok.mp hx
  exact ⟨g, g', hr, hreq⟩

theorem response_read_keys : ∃ g g',
    run (serve ⟨64, 0⟩) {} [ask 0 ["set", "k", "v"]] = .ok g ∧
      doRequest ⟨64, 0⟩ 1 g [ascii "keys"] [] =
        .ok (g', .RES_OK, outStr (outArr [] 1) (ascii "k")) ∧
      (ReadWhole (outStr (outArr [] 1) (ascii "k")) ↔ Readable g [ascii "keys"]) := by
  obtain ⟨g, g', hr, hreq⟩ := answer_after
    (show ((run (serve ⟨64, 0⟩) {} [ask 0 ["set", "k", "v"]] >>= fun g =>
      doRequest ⟨64, 0⟩ 1 g [ascii "keys"] []).toOption.map Prod.snd) =
      some (.RES_OK, outStr (outArr [] 1) (ascii "k")) by decide +kernel)
  exact ⟨g, g', hr, hreq, response_read_iff hr hreq⟩

/-- `zscore` answers a double, and `on_response` does not know the tag. -/
theorem zscore_is_not_read : ∃ g g',
    run (serve ⟨64, 0⟩) {} [ask 0 ["zadd", "k", "1", "m"]] = .ok g ∧
      doRequest ⟨64, 0⟩ 1 g [ascii "zscore", ascii "k", ascii "m"] [] =
        .ok (g', .RES_OK, outDbl [] ⟨0x3FF0000000000000⟩) ∧
      readResponse (outDbl [] ⟨0x3FF0000000000000⟩) = .ok (-1) ∧
      ¬ReadWhole (outDbl [] ⟨0x3FF0000000000000⟩) := by
  obtain ⟨g, g', hr, hreq⟩ := answer_after
    (show ((run (serve ⟨64, 0⟩) {} [ask 0 ["zadd", "k", "1", "m"]] >>= fun g =>
      doRequest ⟨64, 0⟩ 1 g [ascii "zscore", ascii "k", ascii "m"] []).toOption.map Prod.snd) =
      some (.RES_OK, outDbl [] ⟨0x3FF0000000000000⟩) by decide +kernel)
  refine ⟨g, g', hr, hreq, readResponse_dbl _, ?_⟩
  intro hw
  rw [ReadWhole, readResponse_dbl] at hw
  cases hw.2

end RedisServer
