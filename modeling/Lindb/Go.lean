import Mathlib.Algebra.Order.Ring.Int
import Mathlib.Algebra.Order.Ring.Nat
import Mathlib.Data.List.Sort
import Mathlib.Logic.Equiv.List
import Mathlib.Tactic.SplitIfs
import Mathlib.Tactic.Tauto
import Mathlib.Tactic.PushNeg
import Mathlib.Tactic.Use

/-! Go library behaviour the memory database relies on: the `sort.Search` loop its sorted slices are
    looked up with, and the `int32(x)` conversion its atomic size counters add through. -/

namespace Lindb

/-! ### sort.Search -/

/-- The loop of `sort.Search`: `for i < j { h := (i + j) / 2; if !f(h) { i = h + 1 } else { j = h } }`.
    It runs on fuel; every round shrinks `j - i`, so `n` rounds finish a search of `[0, n)`. -/
def searchLoop (f : Nat → Bool) : Nat → Nat → Nat → Nat
  | 0, i, _ => i
  | fuel + 1, i, j =>
    if i < j then
      if f ((i + j) / 2) then searchLoop f fuel i ((i + j) / 2) else searchLoop f fuel ((i + j) / 2 + 1) j
    else i

/-- `sort.Search(n, f)`. -/
def search (n : Nat) (f : Nat → Bool) : Nat := searchLoop f n 0 n

/-- What the loop keeps: `f` is false below `i` and true from `j` up to `n`. -/
def SearchBounds (n : Nat) (f : Nat → Bool) (i j : Nat) : Prop :=
  i ≤ j ∧ j ≤ n ∧ (∀ m < i, f m = false) ∧ ∀ m, j ≤ m → m < n → f m = true

section Search
variable {n : Nat} {f : Nat → Bool}

theorem searchLoop_bounds (mono : ∀ a b, a ≤ b → b < n → f a = true → f b = true) :
    ∀ fuel i j, j - i ≤ fuel → SearchBounds n f i j →
      SearchBounds n f (searchLoop f fuel i j) (searchLoop f fuel i j)
  | 0, i, j, hfuel, ⟨hij, hjn, hlo, hhi⟩ => by
    obtain rfl : i = j := by omega
    exact ⟨le_rfl, hjn, hlo, hhi⟩
  | fuel + 1, i, j, hfuel, ⟨hij, hjn, hlo, hhi⟩ => by
    simp only [searchLoop]
    split
    · split
      · rename_i hm
        exact searchLoop_bounds mono fuel _ _ (by omega)
          ⟨by omega, by omega, hlo, fun m hm' hmn => mono _ m hm' hmn hm⟩
      · rename_i hm
        refine searchLoop_bounds mono fuel _ _ (by omega) ⟨by omega, hjn, fun m hm' => ?_, hhi⟩
        cases hfm : f m
        · rfl
        · exact absurd (mono m ((i + j) / 2) (by omega) (by omega) hfm) (by simpa using hm)
    · exact ⟨le_rfl, by omega, hlo, fun m hm hmn => hhi m (by omega) hmn⟩

/-- On a predicate that stays true once it turns true, `sort.Search` returns the first index where it
    holds, or `n`. -/
theorem search_spec (mono : ∀ a b, a ≤ b → b < n → f a = true → f b = true) :
    search n f ≤ n ∧ (∀ m < search n f, f m = false) ∧ ∀ m, search n f ≤ m → m < n → f m = true := by
  obtain ⟨-, h1, h2, h3⟩ := searchLoop_bounds mono n 0 n (by omega)
    ⟨Nat.zero_le _, le_rfl, fun m hm => absurd hm (Nat.not_lt_zero _),
      fun m h hm => absurd (lt_of_le_of_lt h hm) (lt_irrefl _)⟩
  exact ⟨h1, h2, h3⟩

end Search

example : search 5 (fun i => decide (3 ≤ i)) = 3 := by decide

/-! ### Maps

A Go map (and a `sync.Map`) is the list of its entries, one per key; iteration follows the list. -/

section Map
variable {κ α : Type} [DecidableEq κ]

/-- `m[k]`. -/
def mapLoad (m : List (κ × α)) (k : κ) : Option α := (m.find? (·.1 = k)).map (·.2)

/-- `m[k] = v`. -/
def mapStore (m : List (κ × α)) (k : κ) (v : α) : List (κ × α) :=
  if m.any (·.1 = k) then m.map fun x => if x.1 = k then (k, v) else x else m ++ [(k, v)]

/-- `delete(m, k)`. -/
def mapDelete (m : List (κ × α)) (k : κ) : List (κ × α) := m.filter (·.1 ≠ k)

variable {m : List (κ × α)} {k k' : κ} {v : α}

@[simp] theorem mapLoad_nil : mapLoad ([] : List (κ × α)) k = none := rfl

@[simp] theorem mapLoad_cons (x : κ × α) (m : List (κ × α)) :
    mapLoad (x :: m) k = if x.1 = k then some x.2 else mapLoad m k := by
  by_cases h : x.1 = k <;> simp [mapLoad, List.find?_cons, h]

theorem mapLoad_eq_none : mapLoad m k = none ↔ ∀ v, (k, v) ∉ m := by
  simp only [mapLoad, Option.map_eq_none', List.find?_eq_none, decide_eq_true_eq, Prod.forall]
  exact ⟨fun h v hv => h k v hv rfl, fun h a b hab hak => h b (hak ▸ hab)⟩

theorem mem_of_mapLoad (h : mapLoad m k = some v) : (k, v) ∈ m := by
  obtain ⟨⟨a, b⟩, hx, rfl⟩ := Option.map_eq_some'.mp h
  obtain rfl : a = k := by simpa using List.find?_some hx
  exact List.mem_of_find?_eq_some hx

/-- In a map whose keys are distinct, an entry is what its key loads. -/
theorem mapLoad_of_mem (hm : (m.map (·.1)).Nodup) (h : (k, v) ∈ m) : mapLoad m k = some v := by
  induction m with
  | nil => simp at h
  | cons x m ih =>
    simp only [List.map_cons, List.nodup_cons, List.mem_map] at hm
    rcases List.mem_cons.mp h with rfl | h
    · simp
    · have hx : x.1 ≠ k := fun hx => hm.1 ⟨(k, v), h, hx.symm⟩
      simp [hx, ih hm.2 h]

theorem mapLoad_append (m l : List (κ × α)) : mapLoad (m ++ l) k = (mapLoad m k).or (mapLoad l k) := by
  induction m with
  | nil => simp
  | cons x m ih => by_cases h : x.1 = k <;> simp [h, ih]

theorem mapLoad_mapStore : mapLoad (mapStore m k v) k' = if k = k' then some v else mapLoad m k' := by
  have hmap : ∀ l : List (κ × α), mapLoad (l.map fun x => if x.1 = k then (k, v) else x) k' =
      if k = k' then (mapLoad l k).map fun _ => v else mapLoad l k' := by
    intro l
    induction l with
    | nil => simp
    | cons x l ih => by_cases hx : x.1 = k <;> by_cases hk : k = k' <;> simp_all
  unfold mapStore
  split
  · rename_i h
    obtain ⟨x, hx⟩ : ∃ x, (k, x) ∈ m := by simpa using h
    obtain ⟨y, hy⟩ : ∃ y, mapLoad m k = some y := Option.ne_none_iff_exists'.mp fun hn => mapLoad_eq_none.mp hn x hx
    rw [hmap]
    split <;> simp [hy]
  · rename_i h
    have hnone : mapLoad m k = none := mapLoad_eq_none.mpr (by simpa using h)
    by_cases hk : k = k'
    · subst hk; simp [mapLoad_append, hnone]
    · simp [mapLoad_append, hk]

theorem mapLoad_mapDelete : mapLoad (mapDelete m k) k' = if k = k' then none else mapLoad m k' := by
  induction m with
  | nil => simp [mapDelete]
  | cons x m ih =>
    by_cases hk : k = k'
    · subst hk; by_cases hx : x.1 = k <;> simp_all [mapDelete, List.filter_cons]
    · by_cases hx : x.1 = k <;> by_cases hx' : x.1 = k' <;> simp_all [mapDelete, List.filter_cons]

/-- A map whose values are looked up in `f`: when no lookup misses, a key loads the lookup of its value. -/
theorem mapLoad_filterMap {β : Type} (f : α → Option β) (hf : ∀ x ∈ m, (f x.2).isSome) :
    mapLoad (m.filterMap fun x => (f x.2).map (x.1, ·)) k = (mapLoad m k).bind f := by
  induction m with
  | nil => simp
  | cons x m ih =>
    obtain ⟨y, hy⟩ := Option.isSome_iff_exists.mp (hf x (List.mem_cons_self _ _))
    have ih' := ih fun x' hx' => hf x' (List.mem_cons_of_mem _ hx')
    by_cases hx : x.1 = k <;> simp [List.filterMap_cons, hy, hx, ih']

end Map

/-- A look-up `find? p` hands out a pointer, and a method called through it changes that element:
    `setFirst p a` puts the changed element `a` back in its place. -/
def setFirst {α : Type} (p : α → Bool) (a : α) : List α → List α
  | [] => []
  | x :: xs => if p x then a :: xs else x :: setFirst p a xs

section SetFirst
variable {α : Type} {p : α → Bool} {a : α}

theorem mem_setFirst {x : α} : ∀ {l : List α}, x ∈ setFirst p a l → x ∈ l ∨ x = a
  | [], h => by simp [setFirst] at h
  | y :: ys, h => by
    unfold setFirst at h
    split at h <;> rcases List.mem_cons.mp h with rfl | h
    · exact .inr rfl
    · exact .inl (List.mem_cons_of_mem _ h)
    · exact .inl (List.mem_cons_self _ _)
    · exact (mem_setFirst h).imp (List.mem_cons_of_mem _) id

/-- The element `find? p` gives is replaced by `a`; every other element stays. -/
theorem setFirst_keeps {b : α} : ∀ {l : List α}, l.find? p = some b →
    a ∈ setFirst p a l ∧ ∀ y ∈ l, y = b ∨ y ∈ setFirst p a l
  | [], h => by simp at h
  | y :: ys, h => by
    unfold setFirst
    by_cases hy : p y
    · simp only [List.find?_cons_of_pos _ hy, Option.some.injEq] at h
      subst h
      simp only [hy, if_true, List.mem_cons, true_or, forall_eq_or_imp, true_and]
      exact fun z hz => .inr (.inr hz)
    · simp only [List.find?_cons_of_neg _ hy] at h
      have ih := setFirst_keeps h
      simp only [hy, Bool.false_eq_true, if_false, List.mem_cons, forall_eq_or_imp, true_or, or_true, true_and]
      exact ⟨.inr ih.1, fun z hz => (ih.2 z hz).imp_right (.inr ·)⟩

theorem setFirst_eq_self : ∀ {l : List α}, l.find? p = none → setFirst p a l = l
  | [], _ => rfl
  | y :: ys, h => by
    have hy : p y = false := by simpa using List.find?_eq_none.mp h y (List.mem_cons_self _ _)
    simp only [List.find?_cons, hy] at h
    simp [setFirst, hy, setFirst_eq_self h]

theorem setFirst_append_of_none {l₁ : List α} (l₂ : List α) (h : l₁.find? p = none) :
    setFirst p a (l₁ ++ l₂) = l₁ ++ setFirst p a l₂ := by
  induction l₁ with
  | nil => rfl
  | cons y ys ih =>
    have hy : p y = false := by simpa using List.find?_eq_none.mp h y (List.mem_cons_self _ _)
    simp only [List.find?_cons, hy] at h
    simp [setFirst, hy, ih h]

/-- Putting back the element `find? p` gives changes nothing. -/
theorem setFirst_of_find? : ∀ {l : List α}, l.find? p = some a → setFirst p a l = l
  | [], h => by simp at h
  | y :: ys, h => by
    unfold setFirst
    by_cases hy : p y
    · simp only [List.find?_cons_of_pos _ hy, Option.some.injEq] at h
      subst h; simp [hy]
    · simp only [List.find?_cons_of_neg _ hy] at h
      simp [hy, setFirst_of_find? h]

/-- A second replacement of the element `p` finds takes the place of the first. -/
theorem setFirst_setFirst (ha : p a) (b : α) : ∀ l : List α, setFirst p b (setFirst p a l) = setFirst p b l
  | [] => rfl
  | y :: ys => by
    unfold setFirst
    by_cases hy : p y
    · simp [hy, setFirst, ha]
    · simp [hy, setFirst, setFirst_setFirst ha b ys]

/-- After the replacement, `find? p` gives `a`. -/
theorem find?_setFirst_self (ha : p a) : ∀ {l : List α}, (l.find? p).isSome → (setFirst p a l).find? p = some a
  | [], h => by simp at h
  | y :: ys, h => by
    unfold setFirst
    by_cases hy : p y
    · simp [hy, ha]
    · simp only [List.find?_cons, hy] at h
      simp [hy, find?_setFirst_self ha h]

/-- A look-up that `a` and the element replaced both fail sees the same list. -/
theorem find?_setFirst_of_not {q : α → Bool} (hq : q a = false) (hpq : ∀ x, p x → q x = false) :
    ∀ l : List α, (setFirst p a l).find? q = l.find? q
  | [] => rfl
  | y :: ys => by
    unfold setFirst
    by_cases hy : p y
    · simp [hy, List.find?_cons, hq, hpq y hy]
    · simp only [hy, Bool.false_eq_true, if_false, List.find?_cons, find?_setFirst_of_not hq hpq ys]

end SetFirst

/-! ### int32 -/

/-- Go's `int32(x)`: `x` modulo `2 ^ 32`, read as a signed number. The size counters are `atomic.Int32`,
    so every `Add`, `Sub` and `Store` goes through it. -/
def toInt32 (x : Int) : Int := (x + 2 ^ 31) % 2 ^ 32 - 2 ^ 31

theorem toInt32_eq_iff {x y : Int} : toInt32 x = toInt32 y ↔ x % 2 ^ 32 = y % 2 ^ 32 := by
  unfold toInt32
  constructor <;> intro h <;> omega

@[simp] theorem toInt32_add_toInt32 (x y : Int) : toInt32 (x + toInt32 y) = toInt32 (x + y) := by
  rw [toInt32_eq_iff]; unfold toInt32; omega

@[simp] theorem toInt32_toInt32_add (x y : Int) : toInt32 (toInt32 x + y) = toInt32 (x + y) := by
  rw [toInt32_eq_iff]; unfold toInt32; omega

@[simp] theorem toInt32_sub_toInt32 (x y : Int) : toInt32 (x - toInt32 y) = toInt32 (x - y) := by
  rw [toInt32_eq_iff]; unfold toInt32; omega

@[simp] theorem toInt32_toInt32_sub (x y : Int) : toInt32 (toInt32 x - y) = toInt32 (x - y) := by
  rw [toInt32_eq_iff]; unfold toInt32; omega

theorem toInt32_of_lt {x : Int} (h1 : -2 ^ 31 ≤ x) (h2 : x < 2 ^ 31) : toInt32 x = x := by
  unfold toInt32; omega

end Lindb
