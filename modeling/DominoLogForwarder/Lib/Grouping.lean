/-
Putting the elements of a list into groups, in one pass: an element joins the first group whose first element is like
it, and opens a group without one. `same` is any test. When it is an equivalence, two elements are in one group exactly
when they are the same (`together_iff`).
-/
import Mathlib.Data.List.Induction
import Mathlib.Data.List.Pairwise
import Mathlib.Data.List.Perm.Basic

namespace DominoLogForwarder.Grouping

/-- a group is never empty -/
structure Cluster (α : Type) where
  first : α
  others : List α := []

variable {α β : Type}

def Cluster.toList (g : Cluster α) : List α := g.first :: g.others

def Cluster.add (g : Cluster α) (x : α) : Cluster α := { g with others := g.others ++ [x] }

def Cluster.map (f : α → β) (g : Cluster α) : Cluster β := ⟨f g.first, g.others.map f⟩

def put (same : α → α → Bool) (groups : List (Cluster α)) (x : α) : List (Cluster α) :=
  match groups with
  | [] => [⟨x, []⟩]
  | g :: gs => if same g.first x then g.add x :: gs else g :: put same gs x

def groupsOf (same : α → α → Bool) (xs : List α) : List (Cluster α) := xs.foldl (put same) []

variable {same : α → α → Bool}

@[simp] theorem Cluster.toList_add (g : Cluster α) (x : α) : (g.add x).toList = g.toList ++ [x] := rfl

@[simp] theorem Cluster.first_add (g : Cluster α) (x : α) : (g.add x).first = g.first := rfl

@[simp] theorem Cluster.toList_map (f : α → β) (g : Cluster α) : (g.map f).toList = g.toList.map f := rfl

theorem groupsOf_snoc (xs : List α) (x : α) : groupsOf same (xs ++ [x]) = put same (groupsOf same xs) x := by
  simp [groupsOf]

/-! ## One element -/

theorem put_perm (gs : List (Cluster α)) (x : α) :
    ((put same gs x).flatMap Cluster.toList).Perm (gs.flatMap Cluster.toList ++ [x]) := by
  induction gs with
  | nil => exact List.Perm.refl _
  | cons g gs ih =>
    unfold put
    split_ifs
    · simp only [List.flatMap_cons, Cluster.toList_add, List.append_assoc]
      exact List.perm_append_comm.append_left _
    · simpa only [List.flatMap_cons, List.append_assoc] using ih.append_left _

/-- every group was there, or it was there and is like the element, or it is new -/
theorem mem_put {gs : List (Cluster α)} {x : α} {g : Cluster α} (h : g ∈ put same gs x) :
    g ∈ gs ∨ (∃ g' ∈ gs, same g'.first x = true ∧ g = g'.add x) ∨ g = ⟨x, []⟩ := by
  induction gs with
  | nil => exact Or.inr (Or.inr (List.mem_singleton.1 h))
  | cons g' gs ih =>
    unfold put at h
    split_ifs at h with hsame
    · rcases List.mem_cons.1 h with rfl | h
      · exact Or.inr (Or.inl ⟨g', List.mem_cons_self, hsame, rfl⟩)
      · exact Or.inl (List.mem_cons_of_mem _ h)
    · rcases List.mem_cons.1 h with rfl | h
      · exact Or.inl List.mem_cons_self
      · rcases ih h with h | ⟨g₀, hg₀, hs, rfl⟩ | h
        · exact Or.inl (List.mem_cons_of_mem _ h)
        · exact Or.inr (Or.inl ⟨g₀, List.mem_cons_of_mem _ hg₀, hs, rfl⟩)
        · exact Or.inr (Or.inr h)

theorem put_firsts (gs : List (Cluster α)) (x : α) :
    (put same gs x).map Cluster.first = gs.map Cluster.first ∨
      (put same gs x).map Cluster.first = gs.map Cluster.first ++ [x] ∧ ∀ g ∈ gs, same g.first x = false := by
  induction gs with
  | nil => exact Or.inr ⟨rfl, fun g hg => absurd hg List.not_mem_nil⟩
  | cons g gs ih =>
    unfold put
    split_ifs with hsame
    · exact Or.inl rfl
    · rcases ih with ih | ⟨ih, hnone⟩
      · left
        simp only [List.map_cons, ih]
      · right
        refine ⟨by simp only [List.map_cons, ih, List.cons_append], ?_⟩
        intro g' hg'
        rcases List.mem_cons.1 hg' with rfl | hg'
        · exact Bool.eq_false_iff.2 hsame
        · exact hnone g' hg'

/-! ## A list -/

/-- every element is in one place -/
theorem groupsOf_perm (xs : List α) : ((groupsOf same xs).flatMap Cluster.toList).Perm xs := by
  induction xs using List.reverseRecOn with
  | nil => exact List.Perm.refl _
  | append_singleton xs x ih =>
    rw [groupsOf_snoc]
    exact (put_perm _ x).trans (ih.append_right _)

/-- a group keeps the order of the list -/
theorem sublist_of_mem (xs : List α) : ∀ g ∈ groupsOf same xs, g.toList.Sublist xs := by
  induction xs using List.reverseRecOn with
  | nil => exact fun g hg => absurd hg List.not_mem_nil
  | append_singleton xs x ih =>
    intro g hg
    rw [groupsOf_snoc] at hg
    rcases mem_put hg with hg | ⟨g', hg', -, rfl⟩ | rfl
    · exact (ih g hg).trans (List.sublist_append_left _ _)
    · exact (ih g' hg').append (List.Sublist.refl _)
    · exact List.sublist_append_right _ _

/-- the groups are in the order of their first elements -/
theorem firsts_sublist (xs : List α) : ((groupsOf same xs).map Cluster.first).Sublist xs := by
  induction xs using List.reverseRecOn with
  | nil => exact List.Sublist.refl _
  | append_singleton xs x ih =>
    rw [groupsOf_snoc]
    rcases put_firsts (groupsOf same xs) x with h | ⟨h, -⟩
    · rw [h]
      exact ih.trans (List.sublist_append_left _ _)
    · rw [h]
      exact ih.append (List.Sublist.refl _)

theorem same_first (hrefl : ∀ a, same a a = true) (xs : List α) :
    ∀ g ∈ groupsOf same xs, ∀ a ∈ g.toList, same g.first a = true := by
  induction xs using List.reverseRecOn with
  | nil => exact fun g hg => absurd hg List.not_mem_nil
  | append_singleton xs x ih =>
    intro g hg a ha
    rw [groupsOf_snoc] at hg
    rcases mem_put hg with hg | ⟨g', hg', hsame, rfl⟩ | rfl
    · exact ih g hg a ha
    · rw [Cluster.toList_add] at ha
      rcases List.mem_append.1 ha with ha | ha
      · exact ih g' hg' a ha
      · exact List.mem_singleton.1 ha ▸ hsame
    · obtain rfl := List.mem_singleton.1 ha
      exact hrefl _

theorem firsts_differ (xs : List α) :
    ((groupsOf same xs).map Cluster.first).Pairwise fun a b => same a b = false := by
  induction xs using List.reverseRecOn with
  | nil => exact List.Pairwise.nil
  | append_singleton xs x ih =>
    rw [groupsOf_snoc]
    rcases put_firsts (groupsOf same xs) x with h | ⟨h, hnone⟩
    · rwa [h]
    · rw [h, List.pairwise_append]
      refine ⟨ih, List.pairwise_singleton _ _, ?_⟩
      intro a ha b hb
      obtain ⟨g, hg, rfl⟩ := List.mem_map.1 ha
      exact List.mem_singleton.1 hb ▸ hnone g hg

/-- **Two elements are in one group exactly when they are the same.** -/
theorem together_iff (hrefl : ∀ a, same a a = true) (hsymm : ∀ a b, same a b = true → same b a = true)
    (htrans : ∀ a b c, same a b = true → same b c = true → same a c = true) {xs : List α} {a b : α} (ha : a ∈ xs)
    (hb : b ∈ xs) : (∃ g ∈ groupsOf same xs, a ∈ g.toList ∧ b ∈ g.toList) ↔ same a b = true := by
  constructor
  · rintro ⟨g, hg, hga, hgb⟩
    exact htrans a g.first b (hsymm _ _ (same_first hrefl xs g hg a hga)) (same_first hrefl xs g hg b hgb)
  · intro hsame
    obtain ⟨g, hg, hga⟩ := List.mem_flatMap.1 ((groupsOf_perm xs).mem_iff.2 ha)
    obtain ⟨g', hg', hgb⟩ := List.mem_flatMap.1 ((groupsOf_perm xs).mem_iff.2 hb)
    have hfirst : same g.first g'.first = true :=
      htrans _ _ _ (same_first hrefl xs g hg a hga)
        (htrans _ _ _ hsame (hsymm _ _ (same_first hrefl xs g' hg' b hgb)))
    -- the first elements of two groups differ
    by_cases heq : g = g'
    · exact ⟨g, hg, hga, heq ▸ hgb⟩
    · have hpair : (groupsOf same xs).Pairwise fun g g' => same g.first g'.first = false :=
        List.pairwise_map.1 (firsts_differ xs)
      have : Std.Symm fun g g' : Cluster α => same g.first g'.first = false :=
        ⟨fun g g' h => Bool.eq_false_iff.2 fun h' => Bool.eq_false_iff.1 h (hsymm _ _ h')⟩
      exact absurd hfirst (Bool.eq_false_iff.1 (hpair.forall hg hg' heq))

/-- grouping does not look at more than `same` does -/
theorem groupsOf_map (f : β → α) (xs : List β) :
    groupsOf same (xs.map f) = (groupsOf (fun a b => same (f a) (f b)) xs).map (Cluster.map f) := by
  have hput : ∀ (gs : List (Cluster β)) (x : β), put same (gs.map (Cluster.map f)) (f x) =
      (put (fun a b => same (f a) (f b)) gs x).map (Cluster.map f) := by
    intro gs x
    induction gs with
    | nil => rfl
    | cons g gs ih =>
      simp only [List.map_cons, put]
      by_cases hsame : same (f g.first) (f x) = true
      · have hsame' : same (g.map f).first (f x) = true := hsame
        rw [if_pos hsame, if_pos hsame']
        simp [Cluster.map, Cluster.add]
      · have hsame' : ¬same (g.map f).first (f x) = true := hsame
        rw [if_neg hsame, if_neg hsame', ih, List.map_cons]
  induction xs using List.reverseRecOn with
  | nil => rfl
  | append_singleton xs x ih =>
    rw [List.map_append, List.map_singleton, groupsOf_snoc, groupsOf_snoc, ih, hput]

end DominoLogForwarder.Grouping
