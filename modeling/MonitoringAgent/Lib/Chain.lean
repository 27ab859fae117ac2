import Mathlib.Data.List.Basic
import Mathlib.Logic.Function.Basic

/-! Singly linked lists in a store: the cells from a head on, through `next`. -/
namespace Chain

variable {α : Type*} {next next' : α → Option α} {head : Option α} {a b : α} {l : List α}

/-- Following `next` from `head` passes the cells of `l` in order and then ends. -/
inductive Links (next : α → Option α) : Option α → List α → Prop where
  | nil : Links next none []
  | cons {a : α} {l : List α} (h : Links next (next a) l) : Links next (some a) (a :: l)

/-- The cell `b` is met when following `next` from `head`. -/
inductive Reach (next : α → Option α) : Option α → α → Prop where
  | here (a : α) : Reach next (some a) a
  | there {a b : α} (h : Reach next (next a) b) : Reach next (some a) b

theorem not_reach_none : ¬ Reach next none b := nofun

theorem reach_some : Reach next (some a) b ↔ a = b ∨ Reach next (next a) b := by
  constructor
  · rintro (_ | h)
    · exact .inl rfl
    · exact .inr h
  · rintro (rfl | h)
    · exact .here a
    · exact .there h

/-- Cells are met along the links of a closed set of cells only. -/
theorem Reach.congr (h : Reach next head b) (hhead : ∀ a, head = some a → a ∈ l)
    (hclosed : ∀ a ∈ l, ∀ c, next a = some c → c ∈ l) (heq : ∀ a ∈ l, next' a = next a) :
    Reach next' head b := by
  induction h with
  | here a => exact .here a
  | @there a b _ ih =>
    have ha := hhead a rfl
    refine .there ?_
    rw [heq a ha]
    exact ih (hclosed a ha)

theorem Links.reach (h : Links next head l) (hb : b ∈ l) : Reach next head b := by
  induction h with
  | nil => exact absurd hb List.not_mem_nil
  | cons _ ih =>
    rcases List.mem_cons.mp hb with rfl | hb
    · exact .here b
    · exact .there (ih hb)

theorem Links.mem_of_reach (h : Links next head l) (hb : Reach next head b) : b ∈ l := by
  induction hb generalizing l with
  | here a => cases h; exact List.mem_cons_self
  | there _ ih =>
    cases h with
    | cons h => exact List.mem_cons_of_mem _ (ih h)

theorem Links.eq_nil (h : Links next none l) : l = [] := by
  cases h
  rfl

theorem Links.head_mem (h : Links next (some a) l) : a ∈ l := by
  cases h
  exact List.mem_cons_self

/-- A list depends on the links of its own cells only. -/
theorem Links.congr (h : Links next head l) (heq : ∀ a ∈ l, next' a = next a) :
    Links next' head l := by
  induction h with
  | nil => exact .nil
  | cons _ ih =>
    refine .cons ?_
    rw [heq _ List.mem_cons_self]
    exact ih fun a ha => heq a (List.mem_cons_of_mem _ ha)

/-- What follows a cell of the list. -/
theorem Links.rest (h : Links next head l) (ha : a ∈ l) :
    ∃ l', a :: l' <:+ l ∧ Links next (next a) l' := by
  induction h with
  | nil => exact absurd ha List.not_mem_nil
  | cons h ih =>
    rcases List.mem_cons.mp ha with rfl | ha
    · exact ⟨_, List.suffix_rfl, h⟩
    · obtain ⟨l', hsuf, hl'⟩ := ih ha
      exact ⟨l', hsuf.trans (List.suffix_cons _ _), hl'⟩

/-- There is no way back along a list that has each cell once. -/
theorem Links.not_reach_back (h : Links next (some a) l) (hnodup : l.Nodup)
    (hb : Reach next (some a) b) : ¬ Reach next (next b) a := by
  intro hback
  obtain ⟨l', hsuf, hl'⟩ := h.rest (h.mem_of_reach hb)
  have ha : a ∈ l' := hl'.mem_of_reach hback
  cases h with
  | cons h =>
    rename_i l₀
    have hmem : a ∈ l₀ := by
      rcases List.suffix_cons_iff.mp hsuf with he | hsuf'
      · obtain ⟨-, rfl⟩ := List.cons.inj he
        exact ha
      · exact hsuf'.subset (List.mem_cons_of_mem b ha)
    exact (List.nodup_cons.mp hnodup).1 hmem

theorem Links.next_mem (h : Links next head l) (ha : a ∈ l) (hb : next a = some b) : b ∈ l := by
  obtain ⟨l', hsuf, hl'⟩ := h.rest ha
  rw [hb] at hl'
  exact hsuf.subset (List.mem_cons_of_mem _ hl'.head_mem)

/-- A cell that points at the head becomes the new head. -/
theorem Links.push (h : Links next head l) (ha : next a = head) :
    Links next (some a) (a :: l) := .cons (ha ▸ h)

/-- Each link of a cell of `l` leads to a later cell of `l`. -/
def Descends (next : α → Option α) (l : List α) : Prop :=
  ∀ a ∈ l, ∀ b, next a = some b → [a, b].Sublist l

theorem Descends.congr (h : Descends next l) (heq : ∀ a ∈ l, next' a = next a) :
    Descends next' l := by
  intro a ha b hb
  exact h a ha b (heq a ha ▸ hb)

theorem Descends.cons (h : Descends next l) (ha : ∀ b, next a = some b → b ∈ l) :
    Descends next (a :: l) := by
  intro c hc b hb
  rcases List.mem_cons.mp hc with rfl | hc
  · exact List.cons_sublist_cons.mpr (List.singleton_sublist.mpr (ha b hb))
  · exact (h c hc b hb).cons a

theorem mem_of_pair_sublist {l' : List α} (hnodup : (l ++ a :: l').Nodup)
    (h : [a, b].Sublist (l ++ a :: l')) : b ∈ l' := by
  obtain ⟨xs, ys, hab, hxs, hys⟩ := List.sublist_append_iff.mp h
  cases xs with
  | nil =>
    rw [List.nil_append] at hab
    subst hab
    exact List.singleton_sublist.mp (List.cons_sublist_cons.mp hys)
  | cons c xs =>
    obtain ⟨rfl, -⟩ := List.cons.inj hab
    have ha : a ∈ l := hxs.subset List.mem_cons_self
    exact absurd rfl ((List.nodup_append.mp hnodup).2.2 a ha a List.mem_cons_self)

/-- The cells from one of `l` on are a sublist of `l`, so there is no way back. -/
theorem Descends.links (h : Descends next l) (hnodup : l.Nodup) {l₁ l₂ : List α}
    (hl : l = l₁ ++ a :: l₂) : ∃ l', Links next (some a) l' ∧ l'.Sublist (a :: l₂) := by
  induction hn : l₂.length using Nat.strongRecOn generalizing a l₁ l₂ with
  | ind n ih =>
    subst hl
    cases hb : next a with
    | none => exact ⟨[a], .cons (hb ▸ .nil), by simp⟩
    | some b =>
      have hmem := mem_of_pair_sublist hnodup (h a (by simp) b hb)
      obtain ⟨l₃, l₄, rfl⟩ := List.append_of_mem hmem
      have hlt : l₄.length < n := by
        rw [List.length_append, List.length_cons] at hn
        omega
      have hsplit : l₁ ++ a :: (l₃ ++ b :: l₄) = (l₁ ++ a :: l₃) ++ b :: l₄ := by simp
      obtain ⟨l', hlinks, hsub⟩ := ih l₄.length hlt hsplit rfl
      refine ⟨a :: l', .cons (hb ▸ hlinks), ?_⟩
      exact List.cons_sublist_cons.mpr (hsub.trans (List.sublist_append_right _ _))

/-- A walk along `l` has met `seen`, and `a` last. -/
def Met (l seen : List α) (a : α) : Prop :=
  ∃ l₁ l₂ m, l = l₁ ++ a :: l₂ ∧ seen = m ++ [a] ∧ m.Sublist l₁

theorem Met.sublist {seen : List α} (h : Met l seen a) : seen.Sublist l := by
  obtain ⟨l₁, l₂, m, rfl, rfl, hm⟩ := h
  exact hm.append (List.singleton_sublist.mpr List.mem_cons_self)

theorem Met.mem {seen : List α} (h : Met l seen a) : a ∈ l := by
  obtain ⟨l₁, l₂, m, rfl, -, -⟩ := h
  simp

theorem Met.last {seen : List α} (h : Met l seen a) : seen.getLast? = some a := by
  obtain ⟨l₁, l₂, m, -, rfl, -⟩ := h
  simp

theorem met_head (h : l.head? = some a) : Met l [a] a := by
  obtain ⟨l', rfl⟩ := List.head?_eq_some_iff.mp h
  exact ⟨[], l', [], rfl, rfl, List.Sublist.refl _⟩

/-- A walk along the end of a longer list, by a link of that list. -/
theorem Met.step {seen whole : List α} (h : Met l seen a) (hsuf : l <:+ whole)
    (hnodup : whole.Nodup) (hab : [a, b].Sublist whole) : Met l (seen ++ [b]) b := by
  obtain ⟨l₁, l₂, m, rfl, rfl, hm⟩ := h
  obtain ⟨l₀, rfl⟩ := hsuf
  rw [← List.append_assoc] at hnodup hab
  obtain ⟨l₃, l₄, rfl⟩ := List.append_of_mem (mem_of_pair_sublist hnodup hab)
  refine ⟨l₁ ++ a :: l₃, l₄, m ++ [a], by simp, rfl, ?_⟩
  exact hm.append (List.singleton_sublist.mpr List.mem_cons_self)

end Chain
