import RedisServer.IntegerTexts
import RedisServer.StaleSlots

/-!
# expire and ttl

Results:
* `entrySetTtl_keeps_heap` — `entry_set_ttl` adds, re-times or removes the entry's slot and keeps
  the heap in order, the back references exact and the other deadlines as they were;
* `ttl_faithful_iff` — a TTL is kept and answered as it was given as long as its deadline is less
  than `2 ^ 64`: `entry_set_ttl` stores the sum modulo `2 ^ 64`;
* `expire_checks_iff` — `expire` takes the texts of `int64_t` values, and the empty string.
-/

set_option autoImplicit false

namespace RedisServer

open Runs GlobalData

variable {g g' : GlobalData} {p : Ptr} {e : Entry} {now : UInt64}

/-! ## entry_set_ttl -/

/-- What `entry_set_ttl` did. -/
structure GlobalData.TtlSet (g g' : GlobalData) (p : Ptr) (ttlMs : Int) (now : UInt64) : Prop where
  heapOk : g'.TtlOk
  slots : g'.heap.Perm (ttlSlot p ttlMs now ++ otherSlots g.heap p)
  unlisted : ∀ q e', g'.entries q = some e' → (e'.heapIdx = none ↔ ∀ x ∈ g'.heap, x.ref ≠ q)
  own : ∀ e', g'.entries p = some e' →
    g'.deadline e' = if ttlMs < 0 then none else some (now + UInt64.ofInt ttlMs * 1000)
  others : ∀ q e₀ e', q ≠ p → g.entries q = some e₀ → g'.entries q = some e' →
    g'.deadline e' = g.deadline e₀
  retimed : Retimed g.entries g'.entries
  rest : g' = { g with entries := g'.entries, heap := g'.heap }

theorem mem_slots {a a' : Heap} {ttlMs : Int}
    (h : a'.Perm (ttlSlot p ttlMs now ++ otherSlots a p)) {x : HeapItem} :
    x ∈ a' ↔ x ∈ ttlSlot p ttlMs now ∨ x ∈ a ∧ x.ref ≠ p := by
  rw [h.mem_iff, List.mem_append, otherSlots, List.mem_filter, decide_eq_true_eq]

/-- The slots say all of it. -/
theorem ttlSet_of_slots {ttlMs : Int} (ok : g.TtlOk) (h : entrySetTtl g p ttlMs now = .ok g')
    (ok' : g'.TtlOk) (hslots : g'.heap.Perm (ttlSlot p ttlMs now ++ otherSlots g.heap p)) :
    TtlSet g g' p ttlMs now := by
  obtain ⟨hretimed, hrest⟩ := entrySetTtl_ok h
  refine ⟨ok', hslots, fun q e' he' => ⟨?_, ?_⟩, ?_, ?_, hretimed, hrest⟩
  · intro hi x hx hxq
    obtain ⟨i, hxi⟩ := List.mem_iff_getElem?.mp hx
    have := ok'.backed.index i x e' hxi not_false (hxq ▸ he')
    rw [hi] at this
    cases this
  · intro hx
    cases hi : e'.heapIdx with
    | none => rfl
    | some i =>
      obtain ⟨x, hxi, hxq⟩ := ok'.backed.slot q e' i not_false he' hi
      exact absurd hxq (hx x (List.mem_of_getElem? hxi))
  · intro e' he'
    apply Option.ext
    intro d
    rw [deadline_eq_iff ok' he', mem_slots hslots, ttlSlot]
    split <;> simp [eq_comm]
  · intro q e₀ e' hq he₀ he'
    apply Option.ext
    intro d
    rw [deadline_eq_iff ok' he', deadline_eq_iff ok he₀, mem_slots hslots, ttlSlot]
    split <;> simp [hq]

/-- **`entry_set_ttl` keeps the heap well formed**, in each of its modes. -/
theorem entrySetTtl_keeps_heap (ok : g.TtlOk) (he : g.entries p = some e) (ttlMs : Int) :
    ∃ g', entrySetTtl g p ttlMs now = .ok g' ∧ TtlSet g g' p ttlMs now := by
  obtain ⟨g', h, ok', hslots⟩ := entrySetTtl_spec ok he ttlMs
  exact ⟨g', h, ttlSet_of_slots ok h ok' hslots⟩

theorem entrySetTtl_keeps_heap_later : ∃ g g', run (serve ⟨64, 0⟩) {} ttlHistory = .ok g ∧
    entrySetTtl g 0 20 10 = .ok g' ∧ TtlSet g g' 0 20 10 := by
  have hlive : (run (serve ⟨64, 0⟩) {} ttlHistory).toOption.map (fun g => (g.entries 0).isSome) =
      some true := by decide +kernel
  obtain ⟨g, hg, hlive⟩ := ok_of_map hlive
  obtain ⟨e, he⟩ := Option.isSome_iff_exists.mp hlive
  obtain ⟨g', h, hset⟩ :=
    @entrySetTtl_keeps_heap g 0 e 10 (run_ttlOk (by decide +kernel) hg).2 he 20
  exact ⟨g, g', hg, h, hset⟩

/-! ## How long a TTL is kept -/

/-- The deadline `entry_set_ttl` stores. -/
theorem deadline_toNat (t ttlMs : Nat) :
    (UInt64.ofNat t + UInt64.ofInt ttlMs * 1000).toNat = (t + 1000 * ttlMs) % 2 ^ 64 := by
  have hms : (UInt64.ofInt ttlMs).toNat = ttlMs % 2 ^ 64 := by
    rw [UInt64.ofInt, UInt64.toNat_ofNat']
    omega
  have h1000 : (1000 : UInt64).toNat = 1000 := rfl
  rw [UInt64.toNat_add, UInt64.toNat_mul, UInt64.toNat_ofNat', hms, h1000]
  omega

/-- A pass of the TTL loop neither takes the entry at `p` nor moves its deadline. -/
structure GlobalData.KeptByTimers (g : GlobalData) (p : Ptr) (now : UInt64) : Prop where
  notTop : EachExpiry now (fun g => ∀ top ∈ g.heap.head?, top.ref ≠ p) (maxWorks + 1) g
  kept : ∀ g' e, processTimers g now = .ok g' → g.entries p = some e →
    ∃ e', g'.entries p = some e' ∧ e'.body = e.body ∧ g'.deadline e' = g.deadline e

/-- What `do_expire` at clock `t` made of `ttlMs` milliseconds for the entry at `p`: at each later
clock up to `t + 1000 * ttlMs`, in every reachable state in which the deadline is the same, the
entry is kept and `ttl` answers what is left; and a shorter TTL would have had no later deadline. -/
structure TtlFaithful (t ttlMs : Nat) (p : Ptr) (g : GlobalData) (key : Bytes) (g₁ : GlobalData) :
    Prop where
  later : ∀ e₁ g₂ e₂ t', g₁.entries p = some e₁ → Reachable g₂ → g₂.entries p = some e₂ →
    g₂.deadline e₂ = g₁.deadline e₁ → t ≤ t' → t' ≤ t + 1000 * ttlMs → t' < 2 ^ 64 →
    g₂.KeptByTimers p (.ofNat t') ∧
    ∀ name key' g₃ out, lookupEntry g₂ key' = .ok (g₃, some p) →
      doTtl g₂ (.ofNat t') [name, key'] out =
        .ok (g₃, .RES_OK, outInt out ((t + 1000 * ttlMs - t') / 1000 : Nat))
  monotone : ∀ (s : Bytes) (ms : Nat), str2int s = some (ms : Int) → ms ≤ ttlMs →
    ∀ name g₀ out out₀ e₀ e₁ d₀ d₁,
      doExpire g (.ofNat t) [name, key, s] out = .ok (g₀, .RES_OK, out₀) →
      g₀.entries p = some e₀ → g₀.deadline e₀ = some d₀ →
      g₁.entries p = some e₁ → g₁.deadline e₁ = some d₁ → d₀ ≤ d₁

theorem lookupEntry_data {key : Bytes} {r : Option Ptr} (h : lookupEntry g key = .ok (g', r)) :
    g' = { g with db := g'.db } := by
  obtain ⟨x, -, h⟩ := bind_ok.mp h
  cases h
  rfl

/-- `do_expire` with a number on an entry that is found. -/
theorem doExpire_found {name key s out : Bytes} {ttlMs : Int} (hs : str2int s = some ttlMs)
    (hl : lookupEntry g key = .ok (g', some p)) :
    doExpire g now [name, key, s] out =
      (entrySetTtl g' p ttlMs now).map fun g₁ => (g₁, .RES_OK, outInt out 1) := by
  have hkey : arg [name, key, s] 1 = .ok key := rfl
  have harg : arg [name, key, s] 2 = .ok s := rfl
  unfold doExpire
  rw [harg, ok_bind, hs]
  dsimp only
  rw [hkey, ok_bind, hl, ok_bind]
  dsimp only
  cases entrySetTtl g' p ttlMs now <;> rfl

/-- A successful `do_expire` is a call of `entry_set_ttl`. -/
theorem doExpire_ok {name key s out out₁ : Bytes} {ttlMs : Int} {g₁ : GlobalData}
    (hs : str2int s = some ttlMs) (hl : lookupEntry g key = .ok (g', some p))
    (h : doExpire g now [name, key, s] out = .ok (g₁, .RES_OK, out₁)) :
    entrySetTtl g' p ttlMs now = .ok g₁ := by
  rw [doExpire_found hs hl] at h
  obtain ⟨g₂, hset, heq⟩ := map_ok.mp h
  rw [hset, (Prod.mk.inj heq).1]

/-- What a successful `do_expire` with `ms` milliseconds leaves. -/
theorem doExpire_set {F : Store Entry} (b : g.Backfill F) {name key s out out₁ : Bytes}
    {t ms : Nat} {g₁ : GlobalData} (hs : str2int s = some (ms : Int))
    (hl : lookupEntry g key = .ok (g', some p))
    (h : doExpire g (.ofNat t) [name, key, s] out = .ok (g₁, .RES_OK, out₁)) :
    (∃ F₁, g₁.Backfill F₁) ∧ ∃ e₁ d, g₁.entries p = some e₁ ∧ g₁.deadline e₁ = some d ∧
      d.toNat = (t + 1000 * ms) % 2 ^ 64 := by
  have hset := doExpire_ok hs hl h
  have hdata := lookupEntry_data hl
  have b' : g'.Backfill F := b.congr (by rw [hdata]) (by rw [hdata]) (by rw [hdata])
  obtain ⟨e, he, -⟩ := bind_ok.mp hset
  have he := Store.read_ok.mp he
  obtain ⟨F₁, b₁, hmore⟩ := b'.timed he hset
  obtain ⟨g₂, h₂, ok₂, hslots⟩ := @entrySetTtl_spec _ (.ofNat t) b'.ok p e (b'.more p e he) ms
  cases hmore.symm.trans h₂
  obtain ⟨e₁, he₁, -⟩ := (entrySetTtl_ok hset).1.after he
  have hown := (ttlSet_of_slots b'.ok hmore ok₂ hslots).own e₁ (b₁.more p e₁ he₁)
  rw [if_neg (by omega)] at hown
  exact ⟨⟨F₁, b₁⟩, e₁, _, he₁, hown, deadline_toNat t ms⟩

/-! ### The TTL loop -/

/-- An iteration that is not about the entry at `p` leaves its deadline. -/
theorem expireTop_deadline {F : Store Entry} (b : g.Backfill F) (he : g.entries p = some e)
    {d : UInt64} (hd : g.deadline e = some d) {top : HeapItem} (htop : g.heap.head? = some top)
    (hp : top.ref ≠ p) (h : expireTop g = .ok g') :
    (∃ F', g'.Backfill F') ∧
      ∃ e', g'.entries p = some e' ∧ e'.body = e.body ∧ g'.deadline e' = some d := by
  obtain ⟨top', F', htop', b', hperm, hkept⟩ := b.expireTop h
  rw [List.head?_eq_getElem?] at htop
  cases htop.symm.trans htop'
  obtain ⟨e', he', hb⟩ := hkept p e (Ne.symm hp) he
  refine ⟨⟨F', b'⟩, e', he', hb, (b'.deadline_iff he').mpr ?_⟩
  have hmem := hperm.mem_iff.mpr ((b.deadline_iff he).mp hd)
  refine (List.mem_cons.mp hmem).resolve_left fun heq => hp ?_
  rw [← heq]

/-- The loop leaves an entry whose deadline has not passed. -/
theorem expireLoop_keeps : ∀ (n : Nat) {g : GlobalData} {F : Store Entry} {e : Entry} {d : UInt64},
    g.Backfill F → g.entries p = some e → g.deadline e = some d → ¬d < now →
    EachExpiry now (fun g => ∀ top ∈ g.heap.head?, top.ref ≠ p) n g ∧
    ∀ g', expireLoop now n g = .ok g' →
      ∃ e', g'.entries p = some e' ∧ e'.body = e.body ∧ g'.deadline e' = some d
  | 0, g, F, e, d, _, he, hd, _ => by
    refine ⟨trivial, ?_⟩
    intro g' h
    cases h
    exact ⟨e, he, rfl, hd⟩
  | n + 1, g, F, e, d, b, he, hd, hlate => by
    rw [eachExpiry_succ, expireLoop]
    cases hg : g.heap with
    | nil =>
      constructor
      · intro top rest h
        cases h
      · intro g' h
        cases h
        exact ⟨e, he, rfl, hd⟩
    | cons top rest =>
      have hhead : g.heap.head? = some top := by rw [hg]; rfl
      by_cases hlt : top.val < now
      · have hp : top.ref ≠ p := by
          intro hp
          have := deadline_slot b.ok (b.more p e he) (List.mem_of_mem_head? hhead) hp
          cases hd.symm.trans this
          exact hlate hlt
        have hstep : ∀ g₁, expireTop g = .ok g₁ →
            EachExpiry now (fun g => ∀ top ∈ g.heap.head?, top.ref ≠ p) n g₁ ∧
            ∀ g', expireLoop now n g₁ = .ok g' →
              ∃ e', g'.entries p = some e' ∧ e'.body = e.body ∧ g'.deadline e' = some d :=
          fun g₁ h₁ => by
            obtain ⟨⟨F₁, b₁⟩, e₁, he₁, hb₁, hd₁⟩ := expireTop_deadline b he hd hhead hp h₁
            obtain ⟨heach, hloop⟩ := expireLoop_keeps n b₁ he₁ hd₁ hlate
            refine ⟨heach, ?_⟩
            intro g' h
            obtain ⟨e', he', hb', hd'⟩ := hloop g' h
            exact ⟨e', he', hb'.trans hb₁, hd'⟩
        constructor
        · intro top' rest' h _
          cases h
          refine ⟨?_, fun g₁ h₁ => (hstep g₁ h₁).1⟩
          intro t ht
          obtain rfl := Option.some.inj ht
          exact hp
        · intro g' h
          dsimp only at h
          rw [if_pos hlt] at h
          obtain ⟨g₁, h₁, h⟩ := bind_ok.mp h
          exact (hstep g₁ h₁).2 g' h
      · constructor
        · intro top' rest' h hd'
          cases h
          exact absurd hd' hlt
        · intro g' h
          dsimp only at h
          rw [if_neg hlt] at h
          cases h
          exact ⟨e, he, rfl, hd⟩

theorem keptByTimers {F : Store Entry} (b : g.Backfill F) (he : g.entries p = some e) {d : UInt64}
    (hd : g.deadline e = some d) (hlate : ¬d < now) : g.KeptByTimers p now where
  notTop := (expireLoop_keeps (maxWorks + 1) b he hd hlate).1
  kept g' e' h he' := by
    cases he.symm.trans he'
    rw [hd]
    exact (expireLoop_keeps (maxWorks + 1) b he hd hlate).2 g' h

/-! ### What ttl answers -/

/-- `do_ttl` answers the milliseconds up to the deadline, and 0 behind it. -/
theorem doTtl_answer {g₃ : GlobalData} {name key out : Bytes} {d : UInt64} {t' : Nat}
    (hl : lookupEntry g key = .ok (g₃, some p)) (he : g.entries p = some e)
    (hd : g.deadline e = some d) (ht : t' < 2 ^ 64) :
    doTtl g (.ofNat t') [name, key] out =
      .ok (g₃, .RES_OK, outInt out ((d.toNat - t') / 1000 : Nat)) := by
  obtain ⟨pos, hpos, hval⟩ := Option.bind_eq_some_iff.mp hd
  obtain ⟨x, hx, rfl⟩ := Option.map_eq_some_iff.mp hval
  have hkey : arg [name, key] 1 = .ok key := rfl
  have hread : g₃.entries.read p = .ok e := by
    rw [lookupEntry_data hl]
    exact Store.read_of he
  have hitem : itemAt g₃.heap pos = .ok x := by
    rw [lookupEntry_data hl]
    exact itemAt_of hx
  have hclock : (UInt64.ofNat t').toNat = t' := by
    rw [UInt64.toNat_ofNat', Nat.mod_eq_of_lt ht]
  have hleft : (if x.val > UInt64.ofNat t' then ((x.val - UInt64.ofNat t') / 1000).toNat else 0) =
      (x.val.toNat - t') / 1000 := by
    by_cases hlt : x.val > UInt64.ofNat t'
    · have hle : UInt64.ofNat t' ≤ x.val := UInt64.le_of_lt hlt
      rw [if_pos hlt, UInt64.toNat_div, UInt64.toNat_sub_of_le _ _ hle, hclock]
      rfl
    · have := UInt64.le_iff_toNat_le.mp (UInt64.not_lt.mp hlt)
      rw [if_neg hlt]
      omega
  unfold doTtl
  rw [hkey, ok_bind, hl, ok_bind]
  dsimp only
  rw [hread, ok_bind, hpos]
  dsimp only
  rw [hitem, ok_bind]
  rw [← hleft, Nat.cast_ite, Nat.cast_zero]
  rfl

theorem entryEq_retimed {E E' : Store Entry} (h : Retimed E E') (key : Bytes) :
    entryEq E' key = entryEq E key := by
  funext node
  unfold entryEq
  cases he : E node.ptr with
  | none =>
    have hread : E'.read node.ptr = E.read node.ptr := by
      rw [Store.read, Store.read, he, h.gone he]
    rw [hread]
  | some e =>
    obtain ⟨e', he', hb⟩ := h.after he
    have hkey : e'.body.key = e.body.key := by rw [hb]
    rw [Store.read_of he, Store.read_of he', ok_bind, ok_bind, show e'.key = e.key from hkey]

/-- A change of TTLs leaves every lookup as it was. -/
theorem lookupEntry_retimed {key : Bytes} {g₁ : GlobalData} {r : Option Ptr}
    (h : Retimed g.entries g'.entries) (hdb : g'.db = g.db)
    (hl : lookupEntry g key = .ok (g₁, r)) :
    lookupEntry g' key = .ok ({ g' with db := g₁.db }, r) := by
  obtain ⟨⟨db, n⟩, hlook, hr⟩ := bind_ok.mp hl
  cases hr
  rw [lookupEntry, hdb, entryEq_retimed h, hlook]
  rfl

/-- **A deadline below `2 ^ 64` is kept and answered as it was given.** -/
theorem ttlFaithful_of_lt {g₁ : GlobalData} {name key s out out₁ : Bytes} {t ms : Nat}
    (hlt : t + 1000 * ms < 2 ^ 64) (hr : Reachable g) (hs : str2int s = some (ms : Int))
    (hl : lookupEntry g key = .ok (g', some p))
    (h : doExpire g (.ofNat t) [name, key, s] out = .ok (g₁, .RES_OK, out₁)) :
    TtlFaithful t ms p g key g₁ := by
  obtain ⟨F, b⟩ := hr.backfill
  obtain ⟨-, e₁, d, he₁, hd, hval⟩ := doExpire_set b hs hl h
  rw [Nat.mod_eq_of_lt hlt] at hval
  constructor
  · intro e₁' g₂ e₂ t' he₁' hr₂ he₂ hsame ht hend ht'
    cases he₁.symm.trans he₁'
    rw [hd] at hsame
    obtain ⟨F₂, b₂⟩ := hr₂.backfill
    refine ⟨keptByTimers b₂ he₂ hsame ?_, ?_⟩
    · intro hdue
      have := UInt64.lt_iff_toNat_lt.mp hdue
      rw [UInt64.toNat_ofNat', Nat.mod_eq_of_lt ht'] at this
      omega
    · intro name key' g₃ out hl'
      rw [doTtl_answer hl' he₂ hsame ht', hval]
  · intro s₀ ms₀ hs₀ hle name g₀ out out₀ e₀ e₁' d₀ d₁ h₀ he₀ hd₀ he₁' hd₁
    cases he₁.symm.trans he₁'
    cases hd.symm.trans hd₁
    obtain ⟨-, e₀', d₀', he₀', hd₀', hval₀⟩ := doExpire_set b hs₀ hl h₀
    cases he₀.symm.trans he₀'
    cases hd₀.symm.trans hd₀'
    rw [UInt64.le_iff_toNat_le, hval, hval₀]
    have := Nat.mod_le (t + 1000 * ms₀) (2 ^ 64)
    omega

/-- A TTL that is answered as it was given right away has a deadline below `2 ^ 64`. -/
theorem lt_of_ttlFaithful {g₁ : GlobalData} {name key s out out₁ : Bytes} {t ms : Nat}
    (ht : t < 2 ^ 62) (hr : Reachable g) (hr₁ : Reachable g₁) (hs : str2int s = some (ms : Int))
    (hl : lookupEntry g key = .ok (g', some p))
    (hagain : ∃ g'', lookupEntry g' key = .ok (g'', some p))
    (h : doExpire g (.ofNat t) [name, key, s] out = .ok (g₁, .RES_OK, out₁))
    (hf : TtlFaithful t ms p g key g₁) : t + 1000 * ms < 2 ^ 64 := by
  have hms : ms < 2 ^ 63 := by
    rcases str2int_eq_some.mp hs with ⟨-, -, hmax⟩ | ⟨-, hzero⟩ <;> omega
  obtain ⟨F, b⟩ := hr.backfill
  obtain ⟨-, e₁, d, he₁, hd, hval⟩ := doExpire_set b hs hl h
  obtain ⟨g'', hagain⟩ := hagain
  obtain ⟨hretimed, hrest⟩ := entrySetTtl_ok (doExpire_ok hs hl h)
  have hl₁ := lookupEntry_retimed hretimed (by rw [hrest]) hagain
  have hanswer := (hf.later e₁ g₁ e₁ t he₁ hr₁ he₁ rfl (Nat.le_refl t) (by omega) (by omega)).2
    name key _ [] hl₁
  rw [doTtl_answer hl₁ he₁ hd (by omega), hval] at hanswer
  have hout := congrArg (fun r => r.2.2) (Except.ok.inj hanswer)
  have := outInt_inj (by omega) (by omega) hout
  omega

/-- A database with one key. -/
theorem exists_one_key : ∃ g g' g'' e, run (serve ⟨64, 0⟩) {} [ask 0 ["set", "k", "v"]] = .ok g ∧
    lookupEntry g (ascii "k") = .ok (g', some 0) ∧
    lookupEntry g' (ascii "k") = .ok (g'', some 0) ∧ g'.entries 0 = some e := by
  have hfound : (run (serve ⟨64, 0⟩) {} [ask 0 ["set", "k", "v"]]).toOption.map (fun g =>
      (lookupEntry g (ascii "k")).toOption.map fun r => (r.2, (r.1.entries 0).isSome,
        (lookupEntry r.1 (ascii "k")).toOption.map Prod.snd)) =
      some (some (some 0, true, some (some 0))) := by decide +kernel
  obtain ⟨g, hg, hfound⟩ := ok_of_map hfound
  obtain ⟨⟨g', found⟩, hl, hfound⟩ := ok_of_map hfound
  simp only [Prod.mk.injEq] at hfound
  obtain ⟨rfl, hlive, hfound⟩ := hfound
  obtain ⟨e, he⟩ := Option.isSome_iff_exists.mp hlive
  obtain ⟨⟨g'', found⟩, hl', rfl⟩ := ok_of_map hfound
  exact ⟨g, g', g'', e, hg, hl, hl', he⟩

/-- An `expire` on it. -/
theorem exists_expire {t ms : Nat} {s : Bytes} (hs : str2int s = some (ms : Int)) :
    ∃ g g' g'' g₁, Reachable g ∧ Reachable g₁ ∧ lookupEntry g (ascii "k") = .ok (g', some 0) ∧
      lookupEntry g' (ascii "k") = .ok (g'', some 0) ∧
      doExpire g (.ofNat t) [ascii "expire", ascii "k", s] [] =
        .ok (g₁, .RES_OK, outInt [] 1) := by
  obtain ⟨g, g', g'', e, hrun, hl, hagain, he⟩ := exists_one_key
  have ok : g.TtlOk := (run_ttlOk (by decide +kernel) hrun).2
  have ok' : g'.TtlOk := by
    rw [lookupEntry_data hl]
    exact ok
  obtain ⟨g₁, hset, -⟩ := @entrySetTtl_spec g' (.ofNat t) ok' 0 e he ms
  have h : doExpire g (.ofNat t) [ascii "expire", ascii "k", s] [] =
      .ok (g₁, .RES_OK, outInt [] 1) := by
    rw [doExpire_found hs hl, hset]
    rfl
  have hreq : doRequest ⟨64, 0⟩ (.ofNat t) g [ascii "expire", ascii "k", s] [] =
      .ok (g₁, .RES_OK, outInt [] 1) := h
  refine ⟨g, g', g'', g₁, ⟨_, _, hrun⟩,
    ⟨⟨64, 0⟩, [ask 0 ["set", "k", "v"]] ++ [.request (.ofNat t) [ascii "expire", ascii "k", s]],
      ?_⟩, hl, hagain, h⟩
  refine run_append_ok.mpr ⟨g, hrun, run_cons_ok.mpr ⟨g₁, ?_, rfl⟩⟩
  exact serve_request.mpr ⟨_, _, hreq⟩

/-- **A TTL is kept and answered as it was given if and only if** its deadline is below `2 ^ 64`. -/
theorem ttl_faithful_iff {t ms : Nat} {s : Bytes} (ht : t < 2 ^ 62)
    (hs : str2int s = some (ms : Int)) :
    (∀ g g' g₁ p name key out out₁, Reachable g → lookupEntry g key = .ok (g', some p) →
      doExpire g (.ofNat t) [name, key, s] out = .ok (g₁, .RES_OK, out₁) →
      TtlFaithful t ms p g key g₁) ↔ t + 1000 * ms < 2 ^ 64 := by
  constructor
  · intro hlaw
    obtain ⟨g, g', g'', g₁, hr, hr₁, hl, hagain, h⟩ := exists_expire (t := t) hs
    exact lt_of_ttlFaithful ht hr hr₁ hs hl ⟨g'', hagain⟩ h
      (hlaw g g' g₁ 0 (ascii "expire") (ascii "k") [] _ hr hl h)
  · intro hlt g g' g₁ p name key out out₁ hr hl h
    exact ttlFaithful_of_lt hlt hr hs hl h

/-- A day. -/
theorem ttl_faithful_day : (1 : Nat) < 2 ^ 62 ∧ str2int (ascii "86400000") = some (86400000 : Nat) ∧
    ∀ g g' g₁ p name key out out₁, Reachable g → lookupEntry g key = .ok (g', some p) →
      doExpire g (.ofNat 1) [name, key, ascii "86400000"] out = .ok (g₁, .RES_OK, out₁) →
      TtlFaithful 1 86400000 p g key g₁ := by
  refine ⟨by decide, by decide +kernel, ?_⟩
  exact (ttl_faithful_iff (by decide) (by decide +kernel)).mpr (by decide)

/-- `1000 * 18446744073709552` is `2 ^ 64 + 384`: the key is gone after a millisecond. -/
theorem long_ttl_expires_at_once :
    str2int (ascii "18446744073709552") = some 18446744073709552 ∧
    (run (serve ⟨64, 0⟩) {}
      [ask 0 ["set", "k", "v"], ask 0 ["expire", "k", "18446744073709552"]]).toOption.map
      (fun g => (g.heap, (doTtl g 0 [ascii "ttl", ascii "k"] []).toOption.map (fun r => r.2.2),
        (processTimers g 1000).toOption.map fun g => (g.entries 0).isNone)) =
      some ([⟨384, 0⟩], some (outInt [] 0), some true) := by
  decide +kernel

/-! ## Which arguments expire takes -/

/-- `do_expire` takes the text of an `int64_t` for what it is, and any other for an error. -/
structure ExpireChecks (s : Bytes) : Prop where
  found : ∀ v g g' p now name key out, IsInt64Text s v → lookupEntry g key = .ok (g', some p) →
    doExpire g now [name, key, s] out =
      (entrySetTtl g' p v now).map fun g₁ => (g₁, .RES_OK, outInt out 1)
  missed : ∀ v g g' now name key out, IsInt64Text s v → lookupEntry g key = .ok (g', none) →
    doExpire g now [name, key, s] out = .ok (g', .RES_OK, outInt out 0)
  rejects : (∀ v, ¬IsInt64Text s v) → ∀ g now name key out,
    doExpire g now [name, key, s] out =
      .ok (g, .RES_ERR, outErr out ResCode.RES_ERR.toNat (ascii "expect int64"))

theorem doExpire_missed {name key s out : Bytes} {ttlMs : Int} (hs : str2int s = some ttlMs)
    (hl : lookupEntry g key = .ok (g', none)) :
    doExpire g now [name, key, s] out = .ok (g', .RES_OK, outInt out 0) := by
  have hkey : arg [name, key, s] 1 = .ok key := rfl
  have harg : arg [name, key, s] 2 = .ok s := rfl
  unfold doExpire
  rw [harg, ok_bind, hs]
  dsimp only
  rw [hkey, ok_bind, hl, ok_bind]
  rfl

theorem doExpire_rejected {name key s out : Bytes} (hs : str2int s = none) :
    doExpire g now [name, key, s] out =
      .ok (g, .RES_ERR, outErr out ResCode.RES_ERR.toNat (ascii "expect int64")) := by
  have harg : arg [name, key, s] 2 = .ok s := rfl
  unfold doExpire
  rw [harg, ok_bind, hs]
  rfl

/-- **`expire` rejects everything that is not an integer, but for the empty string.** -/
theorem expire_checks_iff (s : Bytes) : ExpireChecks s ↔ s ≠ [] := by
  constructor
  · rintro hc rfl
    have hzero : str2int [] = some 0 := rfl
    have hset : doExpire {} 0 [[], [], []] [] = .ok ({}, .RES_OK, outInt [] 0) :=
      doExpire_missed hzero rfl
    have herr := hc.rejects (fun v => not_isInt64Text_nil) {} 0 [] [] []
    rw [hset] at herr
    cases congrArg (fun r => r.2.1) (Except.ok.inj herr)
  · intro hs
    have hread : ∀ {v}, IsInt64Text s v → str2int s = some v := fun h => str2int_eq_some.mpr (.inl h)
    refine ⟨fun v g g' p now name key out h hl => doExpire_found (hread h) hl,
      fun v g g' now name key out h hl => doExpire_missed (hread h) hl,
      fun h g now name key out => doExpire_rejected ?_⟩
    cases hv : str2int s with
    | none => rfl
    | some v =>
      rcases str2int_eq_some.mp hv with h' | ⟨h', -⟩
      · exact absurd h' (h v)
      · exact absurd h' hs

/-- The empty string is taken for 0, and the key is due at once. -/
theorem empty_argument_sets_ttl : (∀ v, ¬IsInt64Text [] v) ∧
    (run (serve ⟨64, 0⟩) {} [ask 0 ["set", "k", "v"], ask 7 ["expire", "k", ""]]).toOption.map
      (fun g => (g.heap, (processTimers g 8).toOption.map fun g => (g.entries 0).isNone)) =
      some ([⟨7, 0⟩], some true) :=
  ⟨fun _ => not_isInt64Text_nil, by decide +kernel⟩

end RedisServer
