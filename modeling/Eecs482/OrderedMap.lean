import Mathlib.Logic.Function.Basic
import Mathlib.Logic.Relation
import Mathlib.Order.Comparable
import Mathlib.Order.RelClasses
import Mathlib.Tactic.Common

/-!
# Maps ordered by a comparison

An ordered container takes two keys for one if neither is less than the other.
If the comparison is a strict weak order, the container is a map from the
classes of keys.  On a set of keys which the comparison tells apart it is a map
from keys: what is done to the container is done to a function.
-/

namespace Eecs482

open Relation

variable {α β γ κ : Type*} {r : α → α → Prop}

/-! ## Comparisons by rank -/

section Rank

variable {s : κ → κ → Prop} {rank : α → κ}

theorem incompRel_iff_rank_eq
    [Std.Irrefl s] [Std.Trichotomous s] (hrank : ∀ a b, r a b ↔ s (rank a) (rank b))
    (a b : α) : IncompRel r a b ↔ rank a = rank b := by
  constructor
  · rintro ⟨hab, hba⟩
    rw [hrank] at hab hba
    exact Std.Trichotomous.trichotomous _ _ hab hba
  · intro heq
    constructor
    · rw [hrank, heq]
      exact irrefl _
    · rw [hrank, heq]
      exact irrefl _

/-- Elements compared by a rank in a strict total order are weakly ordered. -/
theorem isStrictWeakOrder_of_rank
    [Std.Irrefl s] [IsTrans κ s] [Std.Trichotomous s]
    (hrank : ∀ a b, r a b ↔ s (rank a) (rank b)) : IsStrictWeakOrder α r where
  irrefl a hless := irrefl (rank a) ((hrank a a).mp hless)
  trans a b c hab hbc :=
    (hrank a c).mpr (IsTrans.trans _ _ _ ((hrank a b).mp hab) ((hrank b c).mp hbc))
  incomp_trans a b c hab hbc :=
    (incompRel_iff_rank_eq hrank a c).mpr
      (((incompRel_iff_rank_eq hrank a b).mp hab).trans
        ((incompRel_iff_rank_eq hrank b c).mp hbc))

end Rank

/-! ## The order of a container -/

section Comparator

variable (r) in
/-- The three ways a container tells from `r`. -/
def comparator [DecidableRel r] (a b : α) : Ordering :=
  if r a b then .lt else if r b a then .gt else .eq

theorem comparator_eq_eq_iff [DecidableRel r] {a b : α} :
    comparator r a b = .eq ↔ IncompRel r a b := by
  rw [comparator, IncompRel]
  split
  case isTrue hab => simp [hab]
  case isFalse hab =>
    split
    case isTrue hba => simp [hba]
    case isFalse hba => simp [hab, hba]

variable [IsStrictWeakOrder α r]

/-- What is not before `b` is not before anything after `b`. -/
theorem not_rel_trans {a b c : α} (hba : ¬r b a) (hcb : ¬r c b) : ¬r c a := by
  intro hca
  have hab : ¬r a b := fun hab => hcb (IsTrans.trans _ _ _ hca hab)
  have hbc : ¬r b c := fun hbc => hba (IsTrans.trans _ _ _ hbc hca)
  exact (IsStrictWeakOrder.incomp_trans a b c ⟨hab, hba⟩ ⟨hbc, hcb⟩).2 hca

variable [DecidableRel r]

theorem comparator_isLE_iff {a b : α} :
    (comparator r a b).isLE = true ↔ ¬r b a := by
  rw [comparator]
  split
  case isTrue hab => simp [asymm hab]
  case isFalse hab =>
    split
    case isTrue hba => simp [hba]
    case isFalse hba => simp [hba]

instance : Std.TransCmp (comparator r) where
  eq_swap {a b} := by
    rw [comparator, comparator]
    by_cases hab : r a b
    · simp [hab, asymm hab]
    · by_cases hba : r b a
      · simp [hab, hba]
      · simp [hab, hba]
  isLE_trans {a b c} hab hbc := by
    rw [comparator_isLE_iff] at hab hbc ⊢
    exact not_rel_trans hab hbc

end Comparator

/-! ## Maps and functions -/

abbrev OrderedMap
    (α : Type*) (β : Type*) (r : α → α → Prop) [DecidableRel r] :=
  Std.TreeMap α β (comparator r)

variable (r) in
/-- The keys in `K` are told apart. -/
def Separates (K : Set α) : Prop :=
  ∀ k ∈ K, ∀ k' ∈ K, IncompRel r k k' → k = k'

/-- One assignment to a key in `K`, or to a key that has something already. -/
def Updates [DecidableEq α] (K : Set α) (absent : γ) (f f' : α → γ) : Prop :=
  ∃ k v, (k ∈ K ∨ f k ≠ absent) ∧ f' = Function.update f k v

section Map

variable [DecidableRel r] {K : Set α} {observe : Option β → γ} {m : OrderedMap α β r}
variable {f f' : α → γ}

/-- One insertion or erasure with a key in `K`. -/
def Edits (K : Set α) (m m' : OrderedMap α β r) : Prop :=
  ∃ k ∈ K, m' = m.erase k ∨ ∃ v, m' = m.insert k v

/-- The function is what lookups with keys in `K` observe, and there is nothing
anywhere else. -/
structure Agrees (K : Set α) (observe : Option β → γ) (m : OrderedMap α β r)
    (f : α → γ) : Prop where
  inside : ∀ k ∈ K, observe m[k]? = f k
  outside : ∀ k ∉ K, f k = observe none

theorem Agrees.mem_of_ne (h : Agrees K observe m f) {k : α} (hk : f k ≠ observe none) :
    k ∈ K := by
  by_contra hout
  exact hk (h.outside k hout)

theorem Agrees.update_outside
    [DecidableEq α] (h : Agrees K observe m f) {k : α} (hk : k ∈ K) (v : γ) :
    ∀ k' ∉ K, Function.update f k v k' = observe none := by
  intro k' hk'
  have hne : k' ≠ k := by
    rintro rfl
    exact hk' hk
  rw [Function.update_of_ne hne]
  exact h.outside k' hk'

variable [IsStrictWeakOrder α r]

theorem agrees_empty : Agrees K observe (∅ : OrderedMap α β r) fun _ => observe none where
  inside _ _ := by rw [Std.TreeMap.getElem?_emptyc]
  outside _ _ := rfl

theorem Separates.comparator_eq_iff
    (hsep : Separates r K) {k k' : α} (hk : k ∈ K) (hk' : k' ∈ K) :
    comparator r k k' = .eq ↔ k' = k := by
  rw [comparator_eq_eq_iff]
  constructor
  · intro hincomp
    exact (hsep k hk k' hk' hincomp).symm
  · rintro rfl
    exact ⟨irrefl k', irrefl k'⟩

variable [DecidableEq α]

theorem Agrees.insert
    (hsep : Separates r K) (h : Agrees K observe m f) {k : α} (hk : k ∈ K) (v : β) :
    Agrees K observe (m.insert k v) (Function.update f k (observe (some v))) where
  inside k' hk' := by
    rw [Std.TreeMap.getElem?_insert, Function.update_apply]
    by_cases heq : k' = k
    · rw [if_pos ((hsep.comparator_eq_iff hk hk').mpr heq), if_pos heq]
    · rw [if_neg (mt (hsep.comparator_eq_iff hk hk').mp heq), if_neg heq]
      exact h.inside k' hk'
  outside := h.update_outside hk _

theorem Agrees.erase
    (hsep : Separates r K) (h : Agrees K observe m f) {k : α} (hk : k ∈ K) :
    Agrees K observe (m.erase k) (Function.update f k (observe none)) where
  inside k' hk' := by
    rw [Std.TreeMap.getElem?_erase, Function.update_apply]
    by_cases heq : k' = k
    · rw [if_pos ((hsep.comparator_eq_iff hk hk').mpr heq), if_pos heq]
    · rw [if_neg (mt (hsep.comparator_eq_iff hk hk').mp heq), if_neg heq]
      exact h.inside k' hk'
  outside := h.update_outside hk _

theorem Agrees.update
    (hobserve : Function.Surjective observe) (hsep : Separates r K)
    (h : Agrees K observe m f) (hupdate : Updates K (observe none) f f') :
    ∃ m', Edits K m m' ∧ Agrees K observe m' f' := by
  obtain ⟨k, v, hkey, rfl⟩ := hupdate
  have hk : k ∈ K := hkey.elim id h.mem_of_ne
  obtain ⟨entry, rfl⟩ := hobserve v
  cases entry with
  | none => exact ⟨m.erase k, ⟨k, hk, .inl rfl⟩, h.erase hsep hk⟩
  | some v => exact ⟨m.insert k v, ⟨k, hk, .inr ⟨v, rfl⟩⟩, h.insert hsep hk v⟩

/-- Whatever is done to the function can be done to the map. -/
theorem Agrees.updates
    (hobserve : Function.Surjective observe) (hsep : Separates r K)
    (h : Agrees K observe m f)
    (hupdates : ReflTransGen (Updates K (observe none)) f f') :
    ∃ m', ReflTransGen (Edits K) m m' ∧ Agrees K observe m' f' := by
  induction hupdates with
  | refl => exact ⟨m, .refl, h⟩
  | tail _ hupdate ih =>
      obtain ⟨m', hedits, h'⟩ := ih
      obtain ⟨m'', hedit, h''⟩ := h'.update hobserve hsep hupdate
      exact ⟨m'', hedits.tail hedit, h''⟩

end Map

end Eecs482
