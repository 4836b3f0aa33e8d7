import Mathlib.Data.List.Nodup
import Mathlib.Data.List.Sort

/-!
# Named members

Lists of values with their names, of which the names are distinct: sorting them by name, and
collecting them if every value is there. Neither changes what is found under a name.
-/

namespace Members

variable {α β : Type*}

/-- The members in the order of their names. -/
def sortKeys (members : List (String × α)) : List (String × α) :=
  members.mergeSort fun a b => decide (a.1 ≤ b.1)

/-- The members, if every value is there. -/
def collect : List (String × Option α) → Option (List (String × α))
  | [] => some []
  | (key, value) :: members =>
    value.bind fun a => (collect members).map fun as => (key, a) :: as

/-- No name occurs twice. -/
def Distinct (members : List (String × α)) : Prop := (members.map Prod.fst).Nodup

theorem mem_sortKeys {members : List (String × α)} {m : String × α} :
    m ∈ sortKeys members ↔ m ∈ members := List.mem_mergeSort

theorem sortKeys_map (f : α → β) (members : List (String × α)) :
    sortKeys (members.map fun m => (m.1, f m.2)) =
      (sortKeys members).map fun m => (m.1, f m.2) := by
  unfold sortKeys
  rw [List.map_mergeSort]
  intro a _ b _
  rfl

theorem lookup_map (f : α → β) (members : List (String × α)) (key : String) :
    (members.map fun m => (m.1, f m.2)).lookup key = (members.lookup key).map f := by
  induction members with
  | nil => rfl
  | cons m members ih =>
    rw [List.map_cons, List.lookup_cons, List.lookup_cons, ih]
    cases key == m.1 <;> rfl

theorem distinct_map {f : α → β} {members : List (String × α)} :
    Distinct (members.map fun m => (m.1, f m.2)) ↔ Distinct members := by
  unfold Distinct
  rw [List.map_map]
  rfl

theorem lookup_eq_some_iff {members : List (String × α)} (h : Distinct members) {key : String}
    {a : α} : members.lookup key = some a ↔ (key, a) ∈ members := by
  induction members with
  | nil => simp
  | cons m members ih =>
    obtain ⟨hnot, hrest⟩ := List.nodup_cons.mp h
    rw [List.lookup_cons, List.mem_cons]
    by_cases hkey : key = m.1
    · have hmem : (key, a) ∉ members := fun hm => hnot (hkey ▸ List.mem_map_of_mem hm)
      simp only [hkey, beq_self_eq_true, Option.some.injEq, Prod.ext_iff, true_and]
      rw [hkey] at hmem
      simp only [hmem, or_false]
      exact eq_comm
    · rw [beq_false_of_ne hkey, ih hrest]
      exact ⟨.inr, fun hm => hm.resolve_left fun he => hkey (congrArg Prod.fst he)⟩

theorem lookup_perm {members members' : List (String × α)} (h : members'.Perm members)
    (hdistinct : Distinct members) (key : String) : members'.lookup key = members.lookup key := by
  have hdistinct' : Distinct members' := (h.map Prod.fst).nodup_iff.mpr hdistinct
  ext a
  rw [lookup_eq_some_iff hdistinct', lookup_eq_some_iff hdistinct, h.mem_iff]

theorem collect_eq_some {members : List (String × Option α)} {as : List (String × α)} :
    collect members = some as ↔ members = as.map fun m => (m.1, some m.2) := by
  induction members generalizing as with
  | nil =>
    cases as with
    | nil => simp [collect]
    | cons m as => simp [collect]
  | cons m members ih =>
    obtain ⟨key, value⟩ := m
    cases value with
    | none =>
      cases as with
      | nil => simp [collect]
      | cons m as => simp [collect]
    | some a =>
      cases as with
      | nil => simp [collect]
      | cons m as =>
        obtain ⟨key', a'⟩ := m
        simp [collect, ih]
        tauto

theorem collect_isSome {members : List (String × Option α)} :
    (collect members).isSome ↔ ∀ m ∈ members, m.2.isSome := by
  induction members with
  | nil => simp [collect]
  | cons m members ih =>
    obtain ⟨key, value⟩ := m
    cases value with
    | none => simp [collect]
    | some a => simp [collect, ih]

/-- Values that are collected and then mapped are collected as they are mapped. -/
theorem collect_bind (f : α → Option β) (members : List (String × Option α)) :
    ((collect members).bind fun as => collect (as.map fun m => (m.1, f m.2))) =
      collect (members.map fun m => (m.1, m.2.bind f)) := by
  induction members with
  | nil => rfl
  | cons m members ih =>
    obtain ⟨key, value⟩ := m
    rw [List.map_cons, collect, collect, ← ih]
    cases value with
    | none => rfl
    | some a =>
      simp only [Option.bind_some]
      cases collect members with
      | none => cases f a <;> rfl
      | some as => rfl

theorem distinct_collect {members members' : List (String × Option α)} {as : List (String × α)}
    (hcollect : collect members' = some as) (hperm : members'.Perm members)
    (hdistinct : Distinct members) : Distinct as := by
  obtain rfl := collect_eq_some.mp hcollect
  exact distinct_map.mp ((hperm.map Prod.fst).nodup_iff.mpr hdistinct)

/-- What is found after distinct names are collected in any order. -/
theorem lookup_collect {members members' : List (String × Option α)} {as : List (String × α)}
    (hcollect : collect members' = some as) (hperm : members'.Perm members)
    (hdistinct : Distinct members) (key : String) :
    as.reverse.lookup key = (members.lookup key).join := by
  have hdistinct' := distinct_collect hcollect hperm hdistinct
  obtain rfl := collect_eq_some.mp hcollect
  rw [lookup_perm as.reverse_perm hdistinct', ← lookup_perm hperm hdistinct, lookup_map]
  cases as.lookup key <;> rfl

end Members
