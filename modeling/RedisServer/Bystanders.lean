import RedisServer.StaleSlots
import RedisServer.Lib.Follows

/-!
# Entries that are not the server's to touch

An entry that waits for the thread pool stays allocated until a worker deletes it, while the main
thread goes on.  `Beside B g F` says that `F` has the entries of `g` and besides them the entries
`B`: what a handler does to `g`, if it returns, it does in their presence, and leaves them alone
(what becomes of their `heap_idx` is not followed).

Results:
* `doRequest_beside` — every request but `del`;
* `Beside.removed`, `Beside.free`, `Beside.handOver` — what `del` and the TTL loop do to the entries.
-/

set_option autoImplicit false

namespace RedisServer

open Runs GlobalData

/-- `F` has the entries of `g`, and besides them `B`, whatever `heap_idx` they have. -/
structure Beside (B : Store Entry) (g : GlobalData) (F : Store Entry) : Prop where
  more : Extends g.entries F
  rest : ∀ p, g.entries p = none → (F p).map Entry.body = (B p).map Entry.body
  apart : ∀ p e, B p = some e → p < g.next ∧ g.entries p = none

/-- The same outcome, with other entries besides. -/
def Alongside {α : Type} (B : Store Entry) (r r' : GlobalData × α) : Prop :=
  ∃ F, r' = (r.1.withEntries F, r.2) ∧ Beside B r.1 F

variable {B F E : Store Entry} {g g' : GlobalData} {p : Ptr} {e : Entry} {now : UInt64}
  {lim : Limits} {key : Bytes}

theorem Alongside.of {α : Type} {a : α} (h : Beside B g F) :
    Alongside B (g, a) (g.withEntries F, a) := ⟨F, rfl, h⟩

/-! ## Changes of entries -/

theorem Beside.read (h : Beside B g F) (p : Ptr) :
    Follows (fun e e' => e = e' ∧ g.entries p = some e) (g.entries.read p) (F.read p) := by
  intro e he
  exact ⟨e, Store.read_of (h.more p e (Store.read_ok.mp he)), rfl, Store.read_ok.mp he⟩

theorem write_eq_none {q : Ptr} : E.write p e q = none ↔ q ≠ p ∧ E q = none := by
  by_cases hq : q = p
  · rw [hq, Store.write_self]
    simp
  · rw [Store.write_of_ne _ _ hq]
    exact (and_iff_right hq).symm

/-- The table and the heap play no part. -/
theorem Beside.congr (h : Beside B g F) (hE : g'.entries = g.entries) (hn : g'.next = g.next) :
    Beside B g' F where
  more := hE ▸ h.more
  rest := hE ▸ h.rest
  apart p e he := by
    rw [hE, hn]
    exact h.apart p e he

theorem Beside.write (h : Beside B g F) (he : g.entries p = some e) (e' : Entry) :
    Beside B { g with entries := g.entries.write p e' } (F.write p e') where
  more := h.more.write p e'
  rest q hq := by
    obtain ⟨hne, hq⟩ := write_eq_none.mp hq
    rw [Store.write_of_ne _ _ hne]
    exact h.rest q hq
  apart q b hb := by
    obtain ⟨hlt, hnone⟩ := h.apart q b hb
    have hne : q ≠ p := by
      rintro rfl
      rw [he] at hnone
      cases hnone
    exact ⟨hlt, (Store.write_of_ne _ _ hne).trans hnone⟩

theorem Beside.create (h : Beside B g F) (db : HMap) (e : Entry) :
    Beside B { g with db := db, entries := g.entries.write g.next e, next := g.next + 1 }
      (F.write g.next e) where
  more := h.more.write _ e
  rest q hq := by
    obtain ⟨hne, hq⟩ := write_eq_none.mp hq
    rw [Store.write_of_ne _ _ hne]
    exact h.rest q hq
  apart q b hb := by
    obtain ⟨hlt, hnone⟩ := h.apart q b hb
    exact ⟨Nat.lt_succ_of_lt hlt, (Store.write_of_ne _ _ (Nat.ne_of_lt hlt)).trans hnone⟩

/-- Only `heap_idx` fields were written. -/
theorem Beside.retimed {F' : Store Entry} (h : Beside B g F) (hn : g'.next = g.next)
    (hE : Retimed g.entries g'.entries) (hF : Retimed F F') (hm : Extends g'.entries F') :
    Beside B g' F' where
  more := hm
  rest q hq := by
    have hnone : g.entries q = none := by
      by_contra hsome
      obtain ⟨e, he⟩ := Option.ne_none_iff_exists'.mp hsome
      obtain ⟨e', he', -⟩ := hE.after he
      rw [hq] at he'
      cases he'
    exact (hF q).trans (h.rest q hnone)
  apart q b hb := by
    obtain ⟨hlt, hnone⟩ := h.apart q b hb
    exact ⟨hn ▸ hlt, hE.gone hnone⟩

/-! ## Lookups -/

theorem chainFind_follows {h : UInt64} {eq eq' : HNode → Res Bool}
    (heq : ∀ n, Follows Eq (eq n) (eq' n)) : ∀ (c : Chain),
    Follows Eq (chainFind h eq c) (chainFind h eq' c)
  | [] => Follows.same _
  | cur :: rest => by
    have ih : Follows Eq (do return (← chainFind h eq rest).map (· + 1))
        (do return (← chainFind h eq' rest).map (· + 1)) :=
      (chainFind_follows heq rest).bind fun _ _ hab => hab ▸ Follows.same _
    unfold chainFind
    refine .ite ?_ ih
    refine (heq cur).bind ?_
    rintro a _ rfl
    exact .ite (Follows.same _) ih

theorem hlookup_follows {h : UInt64} {eq eq' : HNode → Res Bool}
    (heq : ∀ n, Follows Eq (eq n) (eq' n)) (t : HTab) :
    Follows Eq (hlookup t h eq) (hlookup t h eq') := by
  unfold hlookup
  refine .ite (Follows.same _) (.bind_same fun c => ?_)
  exact (chainFind_follows heq c).bind fun _ _ hab => hab ▸ Follows.same _

theorem hmLookup_follows {h : UInt64} {eq eq' : HNode → Res Bool}
    (heq : ∀ n, Follows Eq (eq n) (eq' n)) (m : HMap) :
    Follows Eq (hmLookup m h eq) (hmLookup m h eq') := by
  unfold hmLookup
  refine .bind_same fun m => (hlookup_follows heq m.ht1).bind ?_
  rintro r _ rfl
  cases r with
  | some frm => exact Follows.same _
  | none =>
    refine (hlookup_follows heq m.ht2).bind ?_
    rintro r _ rfl
    exact Follows.same _

theorem hmDelete_follows {h : UInt64} {eq eq' : HNode → Res Bool}
    (heq : ∀ n, Follows Eq (eq n) (eq' n)) (m : HMap) :
    Follows Eq (hmDelete m h eq) (hmDelete m h eq') := by
  unfold hmDelete
  refine .bind_same fun m => (hlookup_follows heq m.ht1).bind ?_
  rintro r _ rfl
  cases r with
  | some frm => exact Follows.same _
  | none =>
    refine (hlookup_follows heq m.ht2).bind ?_
    rintro r _ rfl
    exact Follows.same _

theorem Beside.entryEq (h : Beside B g F) (key : Bytes) (n : HNode) :
    Follows Eq (entryEq g.entries key n) (entryEq F key n) :=
  (h.read n.ptr).bind fun _ _ hab => hab.1 ▸ Follows.same _

theorem lookupEntry_beside (h : Beside B g F) (key : Bytes) :
    Follows (Alongside B) (lookupEntry g key) (lookupEntry (g.withEntries F) key) := by
  unfold lookupEntry
  refine (hmLookup_follows (h.entryEq key) g.db).bind ?_
  rintro ⟨m, r⟩ _ rfl
  exact .ok ⟨F, rfl, h.congr rfl rfl⟩

/-! ## Handlers -/

theorem insertEntry_beside (h : Beside B g F) (key val : Bytes) (type : Nat) (zset : Option ZSet) :
    Follows (Alongside B) (insertEntry g key val type zset)
      (insertEntry (g.withEntries F) key val type zset) := by
  unfold insertEntry
  exact .bind_same fun db => .ok ⟨_, rfl, h.create db _⟩

theorem doGet_beside (h : Beside B g F) (cmd : List Bytes) (out : Bytes) :
    Follows (Alongside B) (doGet g cmd out) (doGet (g.withEntries F) cmd out) := by
  unfold doGet
  refine .bind_same fun key => (lookupEntry_beside h key).bind ?_
  rintro ⟨g₁, r⟩ _ ⟨F₁, rfl, h₁⟩
  cases r with
  | none => exact .ok (.of h₁)
  | some p =>
    refine (h₁.read p).bind ?_
    rintro e _ ⟨rfl, he⟩
    exact .bind_same fun _ => .ok (.of h₁)

theorem doSet_beside (h : Beside B g F) (cmd : List Bytes) (out : Bytes) :
    Follows (Alongside B) (doSet g cmd out) (doSet (g.withEntries F) cmd out) := by
  unfold doSet
  refine .bind_same fun key => .bind_same fun val => (insertEntry_beside h key val 0 none).bind ?_
  rintro ⟨g₁, p⟩ _ ⟨F₁, rfl, h₁⟩
  exact .ok (.of h₁)

theorem cbScan_beside (h : Beside B g F) : ∀ (ns : List HNode) (out : Bytes),
    Follows Eq (cbScan g.entries out ns) (cbScan F out ns)
  | [], out => Follows.same _
  | n :: ns, out => by
    unfold cbScan
    refine (h.read n.ptr).bind ?_
    rintro e _ ⟨rfl, he⟩
    exact cbScan_beside h ns _

theorem doKeys_beside (h : Beside B g F) (cmd : List Bytes) (out : Bytes) :
    Follows (Alongside B) (doKeys g cmd out) (doKeys (g.withEntries F) cmd out) := by
  unfold doKeys
  refine .bind_same fun ns₁ => (cbScan_beside h ns₁ _).bind ?_
  rintro o₁ _ rfl
  refine .bind_same fun ns₂ => (cbScan_beside h ns₂ _).bind ?_
  rintro o₂ _ rfl
  exact .ok (.of h)

theorem zaddEntry_beside (h : Beside B g F) (key : Bytes) (found : Option Ptr) :
    Follows (Alongside B) (zaddEntry g key found) (zaddEntry (g.withEntries F) key found) := by
  cases found with
  | some p => exact .ok (.of h)
  | none => exact insertEntry_beside h key [] 1 (some {})

theorem doZadd_beside (h : Beside B g F) (cmd : List Bytes) (out : Bytes) :
    Follows (Alongside B) (doZadd lim g cmd out) (doZadd lim (g.withEntries F) cmd out) := by
  unfold doZadd
  refine .ite (.ok (.of h)) (.bind_same fun s => .bind_same fun score => .bind_same fun name =>
    .bind_same fun key => (lookupEntry_beside h key).bind ?_)
  rintro ⟨g₁, r⟩ _ ⟨F₁, rfl, h₁⟩
  refine (zaddEntry_beside h₁ key r).bind ?_
  rintro ⟨g₂, p⟩ _ ⟨F₂, rfl, h₂⟩
  refine (h₂.read p).bind ?_
  rintro e _ ⟨rfl, he⟩
  exact .bind_same fun z => .bind_same fun ⟨z', added⟩ => .ok ⟨_, rfl, h₂.write he _⟩

theorem doZscore_beside (h : Beside B g F) (cmd : List Bytes) (out : Bytes) :
    Follows (Alongside B) (doZscore g cmd out) (doZscore (g.withEntries F) cmd out) := by
  unfold doZscore
  refine .ite (.ok (.of h)) (.bind_same fun key => (lookupEntry_beside h key).bind ?_)
  rintro ⟨g₁, r⟩ _ ⟨F₁, rfl, h₁⟩
  cases r with
  | none => exact .ok (.of h₁)
  | some p =>
    refine (h₁.read p).bind ?_
    rintro e _ ⟨rfl, he⟩
    refine .ite (.ok (.of h₁)) (.bind_same fun z => .bind_same fun name =>
      .bind_same fun ⟨z', znode⟩ => ?_)
    cases znode with
    | none => exact .ok ⟨_, rfl, h₁.write he _⟩
    | some x => exact .bind_same fun n => .ok ⟨_, rfl, h₁.write he _⟩

theorem doZrem_beside (h : Beside B g F) (cmd : List Bytes) (out : Bytes) :
    Follows (Alongside B) (doZrem lim g cmd out) (doZrem lim (g.withEntries F) cmd out) := by
  unfold doZrem
  refine .ite (.ok (.of h)) (.bind_same fun key => (lookupEntry_beside h key).bind ?_)
  rintro ⟨g₁, r⟩ _ ⟨F₁, rfl, h₁⟩
  cases r with
  | none => exact .ok (.of h₁)
  | some p =>
    refine (h₁.read p).bind ?_
    rintro e _ ⟨rfl, he⟩
    refine .ite (.ok (.of h₁)) (.bind_same fun z => .bind_same fun name =>
      .bind_same fun ⟨z', znode⟩ => ?_)
    cases znode with
    | none => exact .ok ⟨_, rfl, h₁.write he _⟩
    | some x => exact .ok ⟨_, rfl, h₁.write he _⟩

theorem doQuery_beside (h : Beside B g F) (cmd : List Bytes) (out : Bytes) :
    Follows (Alongside B) (doQuery lim g cmd out) (doQuery lim (g.withEntries F) cmd out) := by
  unfold doQuery
  refine .ite (.ok (.of h)) (.bind_same fun key => (lookupEntry_beside h key).bind ?_)
  rintro ⟨g₁, r⟩ _ ⟨F₁, rfl, h₁⟩
  cases r with
  | none => exact .ok (.of h₁)
  | some p =>
    refine (h₁.read p).bind ?_
    rintro e _ ⟨rfl, he⟩
    -- nothing below reads an entry
    refine .ite (.ok (.of h₁)) ?_
    refine .bind_same fun s => .bind_same fun score => .bind_same fun name => ?_
    refine .bind_same fun s => .bind_same fun offset => .bind_same fun s => .bind_same fun limit => ?_
    refine .bind_same fun zset => .bind_same fun first => .bind_same fun znode => ?_
    exact .bind_same fun out => .ok (.of h₁)

theorem entrySetTtl_beside {ttlMs : Int} (h : Beside B g F) (p : Ptr) :
    Follows (fun g₁ g₂ => ∃ F₁, g₂ = g₁.withEntries F₁ ∧ Beside B g₁ F₁)
      (entrySetTtl g p ttlMs now) (entrySetTtl (g.withEntries F) p ttlMs now) := by
  intro g₁ hs
  obtain ⟨F₁, hF, h₁⟩ := entrySetTtl_extends h.more hs
  obtain ⟨hE, hg⟩ := entrySetTtl_ok hs
  exact ⟨_, hF, F₁, rfl, h.retimed (by rw [hg]) hE (entrySetTtl_ok hF).1 h₁⟩

theorem doExpire_beside (h : Beside B g F) (cmd : List Bytes) (out : Bytes) :
    Follows (Alongside B) (doExpire g now cmd out) (doExpire (g.withEntries F) now cmd out) := by
  unfold doExpire
  refine .bind_same fun s => ?_
  cases str2int s with
  | none => exact .ok (.of h)
  | some ttlMs =>
    refine .bind_same fun key => (lookupEntry_beside h key).bind ?_
    rintro ⟨g₁, r⟩ _ ⟨F₁, rfl, h₁⟩
    cases r with
    | none => exact .ok (.of h₁)
    | some p =>
      refine (entrySetTtl_beside h₁ p).bind ?_
      rintro g₂ _ ⟨F₂, rfl, h₂⟩
      exact .ok (.of h₂)

theorem doTtl_beside (h : Beside B g F) (cmd : List Bytes) (out : Bytes) :
    Follows (Alongside B) (doTtl g now cmd out) (doTtl (g.withEntries F) now cmd out) := by
  unfold doTtl
  refine .bind_same fun key => (lookupEntry_beside h key).bind ?_
  rintro ⟨g₁, r⟩ _ ⟨F₁, rfl, h₁⟩
  cases r with
  | none => exact .ok (.of h₁)
  | some p =>
    refine (h₁.read p).bind ?_
    rintro e _ ⟨rfl, he⟩
    cases e.heapIdx with
    | none => exact .ok (.of h₁)
    | some pos => exact .bind_same fun item => .ok (.of h₁)

/-- **Every request but `del`** answers the same and does the same to the entries of `g`. -/
theorem doRequest_beside (h : Beside B g F) {cmd : List Bytes}
    (hdel : ¬(cmd.head? = some (ascii "del") ∧ cmd.length = 2)) (out : Bytes) :
    Follows (Alongside B) (doRequest lim now g cmd out)
      (doRequest lim now (g.withEntries F) cmd out) := by
  cases cmd with
  | nil => exact .ok (.of h)
  | cons name args =>
    unfold doRequest
    refine .ite (doKeys_beside h _ _) (.ite (doGet_beside h _ _) (.ite (doSet_beside h _ _) ?_))
    by_cases hd : name = ascii "del" ∧ (name :: args).length = 2
    · exact absurd ⟨congrArg some hd.1, hd.2⟩ hdel
    rw [if_neg hd, if_neg hd]
    refine .ite (doZadd_beside h _ _) (.ite (doZscore_beside h _ _) (.ite (doZrem_beside h _ _) ?_))
    refine .ite (doQuery_beside h _ _) (.ite (doExpire_beside h _ _) (.ite (doTtl_beside h _ _) ?_))
    exact .ok (.of h)

/-! ## Removal from the heap -/

theorem Beside.removed {a a' : Heap} {pos : Nat} {E' : Store Entry} (h : Beside B g F)
    (hr : heapRemove g.entries a pos = .ok (E', a')) :
    ∃ F', heapRemove F a pos = .ok (F', a') ∧ Beside B { g with entries := E' } F' := by
  obtain ⟨F', hF, h'⟩ := heapRemove_extends h.more hr
  exact ⟨F', hF, h.retimed rfl (heapRemove_retimed hr) (heapRemove_retimed hF) h'⟩

/-- What the main thread deletes is gone for both. -/
theorem Beside.free (h : Beside B g F) (he : g.entries p = some e) :
    Beside B { g with entries := g.entries.free p } (F.free p) where
  more := h.more.free p
  rest q hq := by
    by_cases hqp : q = p
    · rw [hqp, Store.free_self]
      cases hB : B p with
      | none => rfl
      | some b =>
        have hnone := (h.apart p b hB).2
        rw [he] at hnone
        cases hnone
    · have hq : g.entries.free p q = none := hq
      rw [Store.free_of_ne _ hqp] at hq ⊢
      exact h.rest q hq
  apart q b hb := by
    obtain ⟨hlt, hnone⟩ := h.apart q b hb
    have hne : q ≠ p := by
      rintro rfl
      rw [he] at hnone
      cases hnone
    exact ⟨hlt, (Store.free_of_ne _ hne).trans hnone⟩

/-- What the main thread hands over stays. -/
theorem Beside.handOver (h : Beside B g F) (he : g.entries p = some e) (hp : p < g.next) :
    Beside (B.write p e) { g with entries := g.entries.free p } F where
  more := h.more.freed p
  rest q hq := by
    by_cases hqp : q = p
    · rw [hqp, Store.write_self, h.more p e he]
    · have hq : g.entries.free p q = none := hq
      rw [Store.free_of_ne _ hqp] at hq
      rw [Store.write_of_ne _ _ hqp]
      exact h.rest q hq
  apart q b hb := by
    by_cases hqp : q = p
    · rw [hqp]
      exact ⟨hp, Store.free_self _ _⟩
    · rw [Store.write_of_ne _ _ hqp] at hb
      obtain ⟨hlt, hnone⟩ := h.apart q b hb
      exact ⟨hlt, (Store.free_of_ne _ hqp).trans hnone⟩

end RedisServer
