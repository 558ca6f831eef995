import RedisServer.Faults
import RedisServer.Keyspace

/-!
# The type of an entry and its sorted set

Every stored entry has a `ZSet` exactly when its type is 1 (`serve_typed`).  `do_zscore`, `do_zrem`
and `do_query` check this before they use the set; `do_zadd` does not, so it is the one handler that
follows a NULL `ZSet *`, on a key that holds a string (`doRequest_nullZSet_iff`).
-/

set_option autoImplicit false

namespace RedisServer

open Runs GlobalData

variable {g g' : GlobalData} {key : Bytes} {now : UInt64} {lim : Limits} {out : Bytes}

/-- `zset` is not NULL exactly for the sorted sets. -/
def GlobalData.Typed (g : GlobalData) : Prop :=
  ∀ p e, g.entries p = some e → (e.zset.isSome ↔ e.type = 1)

theorem GlobalData.Typed.frame {E : Store Entry} (h : g.Typed) (hf : SameFrame g.entries E) :
    Typed { g with entries := E } := by
  intro p e' he'
  obtain ⟨e, he, hfe⟩ := hf.before he'
  obtain ⟨-, -, -, ht, hz⟩ := Entry.frame_eq hfe
  rw [ht, hz]; exact h p e he

theorem Change.typed {ks : Keys} (h : Change ks g g') (ht : g.Typed) : g'.Typed := by
  cases h with
  | idle => exact ht
  | looked _ hf => exact ht.frame hf
  | @created g₁ g₂ g' e m h₁ hcr hte hf =>
    have h₁ : g₁.Typed := by
      rcases h₁ with ⟨rfl, -⟩ | ⟨hl, -⟩
      · exact ht
      · rw [hl.data]; exact ht
    have h₂ : g₂.Typed := by
      intro p e' hp
      rw [hcr.data] at hp
      have hp : g₁.entries.write g₁.next e p = some e' := hp
      by_cases hpn : p = g₁.next
      · rw [hpn, Store.write_self] at hp; cases hp; exact hte
      · rw [Store.write_of_ne _ _ hpn] at hp; exact h₁ p e' hp
    exact h₂.frame hf
  | @erased g' key n _ he =>
    intro p e' hp
    obtain ⟨e, h, hfe⟩ := he.frame.before hp
    obtain ⟨-, -, -, hty, hz⟩ := Entry.frame_eq hfe
    rw [hty, hz]; exact ht p e (Store.free_eq_some.mp h).2

/-- **Every step keeps the types right.** -/
theorem serve_typed (g : GlobalData) (ev : Event) (g' : GlobalData) (hi : g.Wf ∧ g.Typed)
    (h : serve lim g ev = .ok g') : g'.Wf ∧ g'.Typed :=
  serve_invariant (I := fun g => g.Wf ∧ g.Typed)
    (fun _ _ _ _ hi _ he => ⟨(he.change hi.1).wf hi.1, (he.change hi.1).typed hi.2⟩)
    (fun _ _ hi _ he => ⟨(expireTop_change hi.1 he).wf hi.1, (expireTop_change hi.1 he).typed hi.2⟩)
    hi (meets_true g ev) h

/-! ## The handlers -/

theorem quiet_zsetOf {e : Entry} (h : ¬(e.type ≠ 1 ∨ e.zset.isNone)) : Quiet (zsetOf e) := by
  unfold zsetOf
  cases hz : e.zset with
  | none => simp [hz] at h
  | some z => simp

theorem quiet_doGet (cmd : List Bytes) : Quiet (doGet g cmd out) := by
  unfold doGet
  simp only [quiet_bind, quiet_arg, quiet_lookupEntry, true_and]
  intro k _ r _
  obtain ⟨g₁, found⟩ := r
  cases found <;> simp

theorem quiet_doDel (cmd : List Bytes) : Quiet (doDel g cmd out) := by
  unfold doDel
  simp only [quiet_bind, quiet_arg, quiet_hmDelete, quiet_entryEq, implies_true, true_and]
  intro k _ r _
  obtain ⟨db, found⟩ := r
  cases found <;> simp

theorem quiet_doZscore (cmd : List Bytes) : Quiet (doZscore g cmd out) := by
  unfold doZscore
  rw [quiet_ite]
  refine ⟨fun _ => quiet_ok _, ?_⟩
  intro _
  simp only [quiet_bind, quiet_arg, quiet_lookupEntry, true_and]
  intro k _ r _
  obtain ⟨g₁, found⟩ := r
  cases found with
  | none => exact quiet_ok _
  | some p =>
    simp only [quiet_bind, quiet_read, true_and]
    intro e _
    split
    · exact quiet_ok _
    · rename_i hguard
      simp only [quiet_bind, quiet_zsetOf hguard, quiet_arg, quiet_zsetLookup, true_and]
      intro z _ name _ r _
      obtain ⟨z', zn⟩ := r
      cases zn <;> simp

theorem quiet_doZrem (cmd : List Bytes) : Quiet (doZrem lim g cmd out) := by
  unfold doZrem
  rw [quiet_ite]
  refine ⟨fun _ => quiet_ok _, ?_⟩
  intro _
  simp only [quiet_bind, quiet_arg, quiet_lookupEntry, true_and]
  intro k _ r _
  obtain ⟨g₁, found⟩ := r
  cases found with
  | none => exact quiet_ok _
  | some p =>
    simp only [quiet_bind, quiet_read, true_and]
    intro e _
    split
    · exact quiet_ok _
    · rename_i hguard
      simp only [quiet_bind, quiet_zsetOf hguard, quiet_arg, quiet_zsetPop, true_and]
      intro z _ name _ r _
      obtain ⟨z', zn⟩ := r
      cases zn <;> simp

theorem quiet_doExpire (cmd : List Bytes) : Quiet (doExpire g now cmd out) := by
  unfold doExpire
  simp only [quiet_bind, quiet_arg, true_and]
  intro s _
  cases str2int s with
  | none => exact quiet_ok _
  | some ttlMs =>
    simp only [quiet_bind, quiet_arg, quiet_lookupEntry, true_and]
    intro k _ r _
    obtain ⟨g₁, found⟩ := r
    cases found <;> simp

theorem quiet_doTtl (cmd : List Bytes) : Quiet (doTtl g now cmd out) := by
  unfold doTtl
  simp only [quiet_bind, quiet_arg, quiet_lookupEntry, true_and]
  intro k _ r _
  obtain ⟨g₁, found⟩ := r
  cases found with
  | none => exact quiet_ok _
  | some p =>
    simp only [quiet_bind, quiet_read, true_and]
    intro e _
    cases e.heapIdx <;> simp

theorem stod_error {s : Bytes} {f : Fault} (h : stod s = .error f) : f = .exception := by
  unfold stod at h
  dsimp only at h
  split at h
  · cases h; rfl
  · split at h <;> cases h
    rfl

theorem stoll_error {s : Bytes} {f : Fault} (h : stoll s = .error f) : f = .exception := by
  unfold stoll at h
  dsimp only at h
  split at h <;> cases h
  rfl

/-- The guard of `do_query` keeps NULL out, whatever the numbers. -/
theorem doQuery_ne_nullZSet (cmd : List Bytes) : doQuery lim g cmd out ≠ .error .nullZSet := by
  intro h
  unfold doQuery at h
  split at h
  · cases h
  · rcases bind_error.mp h with h | ⟨k, -, h⟩
    · exact (quiet_arg _ _).2 h
    rcases bind_error.mp h with h | ⟨⟨g₁, found⟩, -, h⟩
    · exact (quiet_lookupEntry _ _).2 h
    cases found with
    | none => cases h
    | some p =>
      rcases bind_error.mp h with h | ⟨e, -, h⟩
      · exact (quiet_read _ _).2 h
      split at h
      · cases h
      · rename_i hguard
        rcases bind_error.mp h with h | ⟨s, -, h⟩
        · exact (quiet_arg _ _).2 h
        rcases bind_error.mp h with h | ⟨score, -, h⟩
        · cases stod_error h
        rcases bind_error.mp h with h | ⟨name, -, h⟩
        · exact (quiet_arg _ _).2 h
        rcases bind_error.mp h with h | ⟨s, -, h⟩
        · exact (quiet_arg _ _).2 h
        rcases bind_error.mp h with h | ⟨off, -, h⟩
        · cases stoll_error h
        rcases bind_error.mp h with h | ⟨s, -, h⟩
        · exact (quiet_arg _ _).2 h
        rcases bind_error.mp h with h | ⟨limit, -, h⟩
        · cases stoll_error h
        have hq : Quiet (do
            let zset ← zsetOf e
            let znode ← zsetQuery lim zset score name
            let znode ← znodeOffset lim zset znode off
            let out ← queryLoop lim zset (limit % 2 ^ 32).toNat lim.steps znode 0 out
            return (g₁, ResCode.RES_OK, out)) := by
          simp [quiet_zsetOf hguard]
        exact hq.2 h

theorem quiet_doKeys (cmd : List Bytes) : Quiet (doKeys g cmd out) := by simp [doKeys]

theorem quiet_doSet (cmd : List Bytes) : Quiet (doSet g cmd out) := by simp [doSet]

/-! ## A sorted-set command on a string -/

/-- The request is a `zadd` with a readable score to a key whose entry is no sorted set. -/
def AddsToString (g : GlobalData) (cmd : List Bytes) : Prop :=
  ∃ key s name score e, cmd = [ascii "zadd", key, s, name] ∧ stod s = .ok score ∧
    g.resolve key = some e ∧ e.type ≠ 1

theorem resolve_some {e : Entry} : g.resolve key = some e ↔
    ∃ g₁ p, lookupEntry g key = .ok (g₁, some p) ∧ g₁.entries p = some e := by
  unfold GlobalData.resolve
  constructor
  · intro h
    split at h
    · rename_i g₁ p hl; exact ⟨g₁, p, hl, h⟩
    · cases h
  · rintro ⟨g₁, p, hl, he⟩
    rw [hl]; exact he

/-- The entry a lookup finds is the one stored there before. -/
theorem resolve_spec (w : g.Wf) {e : Entry} (h : g.resolve key = some e) :
    ∃ g₁, lookupEntry g key = .ok (g₁, some e.node.ptr) ∧ g₁.entries = g.entries ∧
      g.entries e.node.ptr = some e := by
  obtain ⟨g₁, p, hl, he⟩ := resolve_some.mp h
  have hs := lookupEntry_spec w hl
  obtain ⟨-, hp, -⟩ := hs.wf.stored p e he
  rw [hp]
  exact ⟨g₁, hl, hs.entries, hs.entries ▸ he⟩

/-- `do_zadd` follows the NULL `ZSet *` of the string it finds. -/
theorem doZadd_addsToString (ht : g.Typed) (w : g.Wf) {cmd : List Bytes} (h : AddsToString g cmd) :
    doZadd lim g cmd out = .error .nullZSet := by
  obtain ⟨key, s, name, score, e, rfl, hs, hres, hty⟩ := h
  obtain ⟨g₁, hl, hE, he⟩ := resolve_spec w hres
  have hz : zsetOf e = .error .nullZSet := by
    have := (ht _ e he).not.mpr hty
    simp only [Option.not_isSome_iff_eq_none] at this
    simp [zsetOf, this]
  unfold doZadd
  rw [if_neg (by simp), bind_arg s rfl, hs, ok_bind, bind_arg name rfl, bind_arg key rfl, hl]
  simp [zaddEntry, Store.read_of (hE ▸ he : g₁.entries _ = some e), hz]

theorem doZadd_nullZSet (w : g.Wf) (ht : g.Typed) {args : List Bytes}
    (h : doZadd lim g (ascii "zadd" :: args) out = .error .nullZSet) :
    AddsToString g (ascii "zadd" :: args) := by
  unfold doZadd at h
  split at h
  · cases h
  · rename_i hlen
    match args, Decidable.not_not.mp hlen with
    | [key, s, name], _ =>
      rw [bind_arg s rfl] at h
      rcases bind_error.mp h with h | ⟨score, hs, h⟩
      · cases stod_error h
      rw [bind_arg name rfl, bind_arg key rfl] at h
      rcases bind_error.mp h with h | ⟨⟨g₁, found⟩, hl, h⟩
      · exact ((quiet_lookupEntry _ _).2 h).elim
      rcases bind_error.mp h with h | ⟨⟨g₂, p⟩, hz, h⟩
      · exact ((quiet_zaddEntry _ _ _).2 h).elim
      rcases bind_error.mp h with h | ⟨e, he, h⟩
      · exact ((quiet_read _ _).2 h).elim
      rcases bind_error.mp h with h | ⟨z, -, h⟩
      · have hz' : e.zset = none := by
          unfold zsetOf at h
          cases hz : e.zset with
          | none => rfl
          | some z => rw [hz] at h; cases h
        have he := Store.read_ok.mp he
        cases found with
        | none =>
          -- the entry was made by this request, with a sorted set
          have hw := (lookupEntry_spec w hl).wf
          obtain ⟨rfl, m, hc⟩ := insertEntry_spec hw hz
          rw [hc.data] at he
          simp only [Store.write_self, Option.some.injEq] at he
          rw [← he] at hz'
          cases hz'
        | some q =>
          cases hz
          have hres : g.resolve key = some e := resolve_some.mpr ⟨_, _, hl, he⟩
          obtain ⟨-, -, -, heg⟩ := resolve_spec w hres
          exact ⟨key, s, name, score, e, rfl, hs, hres, fun hty => by
            have := (ht _ e heg).mpr hty
            rw [hz'] at this
            cases this⟩
      · exact ((show Quiet _ by simp).2 h).elim

/-- **`do_request` follows a NULL `ZSet *` exactly on a `zadd` to a string.** -/
theorem doRequest_nullZSet_iff (w : g.Wf) (ht : g.Typed) (cmd : List Bytes) :
    doRequest lim now g cmd out = .error .nullZSet ↔ AddsToString g cmd := by
  have other : ∀ {cmd : List Bytes}, cmd.head? ≠ some (ascii "zadd") → ¬AddsToString g cmd := by
    rintro _ hne ⟨key, s, name, -, -, rfl, -⟩
    exact hne rfl
  refine doRequest_cases
    (motive := fun cmd r => r = .error .nullZSet ↔ AddsToString g cmd)
    ?keys ?get ?set ?del ?zadd ?zscore ?zrem ?zquery ?expire ?ttl ?unknown cmd
  case keys => exact iff_of_false (quiet_doKeys _).2 (other (by decide))
  case get => exact fun _ => iff_of_false (quiet_doGet _).2 (other (by simp; decide))
  case set => exact fun _ _ => iff_of_false (quiet_doSet _).2 (other (by simp; decide))
  case del => exact fun _ => iff_of_false (quiet_doDel _).2 (other (by simp; decide))
  case zadd => exact fun _ => ⟨doZadd_nullZSet w ht, doZadd_addsToString ht w⟩
  case zscore => exact fun _ => iff_of_false (quiet_doZscore _).2 (other (by simp; decide))
  case zrem => exact fun _ => iff_of_false (quiet_doZrem _).2 (other (by simp; decide))
  case zquery => exact fun _ => iff_of_false (doQuery_ne_nullZSet _) (other (by simp; decide))
  case expire => exact fun _ _ => iff_of_false (quiet_doExpire _).2 (other (by simp; decide))
  case ttl => exact fun _ => iff_of_false (quiet_doTtl _).2 (other (by simp; decide))
  case unknown =>
    refine fun cmd hk => iff_of_false (by simp) fun ⟨key, s, name, _, _, h, _⟩ => hk ?_
    exact ⟨_, by rw [h]; rfl, by simp⟩

/-- The key of a sorted-set command. -/
def zKey : List Bytes → Option Bytes
  | c :: key :: _ => if c ∈ ["zadd", "zscore", "zrem", "zquery"].map ascii then some key else none
  | _ => none

variable {e : Entry}

/-- The three guarded handlers answer without touching an entry. -/
theorem doZscore_string (w : g.Wf) (hres : g.resolve key = some e) (hty : e.type ≠ 1)
    (rest : List Bytes) :
    ∃ g' r, doZscore g (ascii "zscore" :: key :: rest) out = .ok (g', r) ∧
      g'.entries = g.entries := by
  obtain ⟨g₁, hl, hE, he⟩ := resolve_spec w hres
  unfold doZscore
  split
  · exact ⟨g, _, rfl, rfl⟩
  · rw [bind_arg key rfl, hl]
    exact ⟨g₁, (.RES_NX, outNil out), by simp [Store.read_of (hE ▸ he : g₁.entries _ = some e), hty],
      hE⟩

theorem doZrem_string (w : g.Wf) (hres : g.resolve key = some e) (hty : e.type ≠ 1)
    (rest : List Bytes) :
    ∃ g' r, doZrem lim g (ascii "zrem" :: key :: rest) out = .ok (g', r) ∧
      g'.entries = g.entries := by
  obtain ⟨g₁, hl, hE, he⟩ := resolve_spec w hres
  unfold doZrem
  split
  · exact ⟨g, _, rfl, rfl⟩
  · rw [bind_arg key rfl, hl]
    exact ⟨g₁, (.RES_OK, outInt out 0),
      by simp [Store.read_of (hE ▸ he : g₁.entries _ = some e), hty], hE⟩

theorem doQuery_string (w : g.Wf) (hres : g.resolve key = some e) (hty : e.type ≠ 1)
    (rest : List Bytes) :
    ∃ g' r, doQuery lim g (ascii "zquery" :: key :: rest) out = .ok (g', r) ∧
      g'.entries = g.entries := by
  obtain ⟨g₁, hl, hE, he⟩ := resolve_spec w hres
  unfold doQuery
  split
  · exact ⟨g, _, rfl, rfl⟩
  · rw [bind_arg key rfl, hl]
    exact ⟨g₁, (.RES_NX, out), by simp [Store.read_of (hE ▸ he : g₁.entries _ = some e), hty], hE⟩

theorem doZadd_string (hres : g.resolve key = some e) (hty : e.type ≠ 1) (w : g.Wf) (ht : g.Typed)
    (rest : List Bytes) :
    (∃ g' r, doZadd lim g (ascii "zadd" :: key :: rest) out = .ok (g', r) ∧
      g'.entries = g.entries) ↔ rest.length ≠ 2 := by
  constructor
  · rintro ⟨g', r, h, -⟩ hlen
    match rest, hlen with
    | [s, name], _ =>
      cases hs : stod s with
      | error f =>
        unfold doZadd at h
        rw [if_neg (by simp), bind_arg s rfl, hs] at h
        cases h
      | ok score =>
        rw [doZadd_addsToString ht w ⟨key, s, name, score, e, rfl, hs, hres, hty⟩] at h
        cases h
  · intro hlen
    unfold doZadd
    rw [if_pos (by simpa using hlen)]
    exact ⟨g, _, rfl, rfl⟩

/-- On a string every sorted-set command returns and keeps the entry, `zadd` with its four
arguments excepted. -/
theorem zCommand_string (w : g.Wf) (ht : g.Typed) (hres : g.resolve key = some e)
    (hty : e.type ≠ 1) {cmd : List Bytes} (hz : zKey cmd = some key) :
    (∃ g' r, doRequest lim now g cmd out = .ok (g', r) ∧ g'.entries = g.entries) ↔
      ∀ s name, cmd ≠ [ascii "zadd", key, s, name] := by
  match cmd, hz with
  | c :: k :: rest, hz =>
    simp only [zKey, List.map_cons, List.map_nil, List.mem_cons, List.not_mem_nil, or_false] at hz
    split at hz
    · rename_i hc
      cases hz
      rcases hc with rfl | rfl | rfl | rfl
      · have hd : doRequest lim now g (ascii "zadd" :: key :: rest) out =
            doZadd lim g (ascii "zadd" :: key :: rest) out := rfl
        rw [hd, doZadd_string hres hty w ht]
        constructor
        · rintro hlen s name heq
          cases heq
          exact hlen rfl
        · intro h hlen
          match rest, hlen with
          | [s, name], _ => exact h s name rfl
      · exact iff_of_true (doZscore_string w hres hty rest) fun s name h => by
          simp only [List.cons.injEq] at h
          exact absurd h.1 (by decide)
      · exact iff_of_true (doZrem_string w hres hty rest) fun s name h => by
          simp only [List.cons.injEq] at h
          exact absurd h.1 (by decide)
      · exact iff_of_true (doQuery_string w hres hty rest) fun s name h => by
          simp only [List.cons.injEq] at h
          exact absurd h.1 (by decide)
    · cases hz

/-- **Type discipline.** After any history every entry has a `ZSet` exactly when its type is 1;
`do_request` follows a NULL `ZSet *` exactly on a `zadd` to a string; and on a string exactly the
other sorted-set requests return, with every entry as it was.  Every stored key resolves when no
deletion has taken a node of ht2. -/
theorem sorted_set_commands_on_strings (lim : Limits) (evs : List Event) (g : GlobalData)
    (hr : run (serve lim) {} evs = .ok g) :
    (∀ p e, g.entries p = some e → (e.zset.isSome ↔ e.type = 1)) ∧
    (∀ now cmd out, doRequest lim now g cmd out = .error .nullZSet ↔ AddsToString g cmd) ∧
    (∀ now cmd out key e, zKey cmd = some key → g.resolve key = some e → e.type ≠ 1 →
      ((∃ g' r, doRequest lim now g cmd out = .ok (g', r) ∧ g'.entries = g.entries) ↔
        ∀ s name, cmd ≠ [ascii "zadd", key, s, name])) ∧
    (AllSteps (serve lim) (fun g ev => ev.Meets ChargedDel ChargedExpiry g) {} evs →
      ∀ p e, g.entries p = some e → (g.resolve e.key).isSome) := by
  have hi : g.Wf ∧ g.Typed :=
    run_invariant_all serve_typed ⟨.empty, fun p e he => by cases he⟩ hr
  refine ⟨hi.2, fun now cmd out => doRequest_nullZSet_iff hi.1 hi.2 cmd,
    fun now cmd out key e hz hres hty => zCommand_string hi.1 hi.2 hres hty hz,
    ?_⟩
  intro hc p e he
  have hx : g.Wf ∧ g.db.Exact := run_invariant (I := fun g => g.Wf ∧ g.db.Exact)
    (fun _ _ _ hi hc h => serve_exact hi hc h) ⟨.empty, HMap.exact_empty⟩ hc hr
  obtain ⟨g', r, hl, hs, -⟩ := lookupEntry_total hx.1 hx.2 e.key
  have hmem : e.node ∈ g'.copies e.key := (hs.wf.mem_copies (hs.entries ▸ he)).1
  cases hr' : r with
  | none =>
    rw [hr'] at hs
    have := hs.found
    simp only [List.head?_eq_none_iff, eq_comm (a := none), Option.map_eq_none_iff] at this
    rw [this] at hmem
    cases hmem
  | some p =>
    rw [hr'] at hl hs
    obtain ⟨-, e', -, -, he', -⟩ := hs.some
    rw [resolve_some.mpr ⟨g', p, hl, he'⟩]
    rfl

def stringAtK : GlobalData := (run (serve ⟨64, 0⟩) {} [ask 0 ["set", "k", "a"]]).toOption.getD {}

theorem sorted_set_commands_on_strings_zscore : ∃ g' r,
    doRequest ⟨64, 0⟩ 1 stringAtK [ascii "zscore", ascii "k", ascii "m"] [] = .ok (g', r) ∧
      g'.entries = stringAtK.entries := by
  have h := (sorted_set_commands_on_strings ⟨64, 0⟩ [ask 0 ["set", "k", "a"]] stringAtK
    (ok_getD (by decide +kernel))).2.2.1 1 [ascii "zscore", ascii "k", ascii "m"] [] (ascii "k")
  obtain ⟨e, he⟩ : ∃ e, stringAtK.resolve (ascii "k") = some e :=
    Option.isSome_iff_exists.mp (by decide +kernel)
  have hty : ∀ e ∈ stringAtK.resolve (ascii "k"), e.type ≠ 1 := by decide +kernel
  exact (h e (by decide) he (hty e he)).mpr fun s name heq => by
    simp only [List.cons.injEq] at heq
    exact absurd heq.1 (by decide)

/-- `zadd` to a key that holds a string reads `zset->tree` through NULL. -/
theorem zadd_follows_null_zset :
    run (serve ⟨64, 0⟩) {} [ask 0 ["set", "k", "a"]] = .ok stringAtK ∧
      serve ⟨64, 0⟩ stringAtK (ask 1 ["zadd", "k", "1", "m"]) = .error .nullZSet := by
  refine ⟨ok_getD (by decide +kernel), ?_⟩
  have h : (serve ⟨64, 0⟩ stringAtK (ask 1 ["zadd", "k", "1", "m"])).map (fun _ => ()) =
      .error .nullZSet := by decide +kernel
  exact map_error.mp h

end RedisServer
