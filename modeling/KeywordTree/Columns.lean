import KeywordTree.Error

/-! The columns of a word length, divided into those still to be tested and those
already used. Slots number the pending columns only. -/
namespace KeywordTree

structure Columns where
  /-- Columns still to be tested, in slot order. -/
  pending : List Nat
  /-- Columns already tested, the latest first. -/
  spent : List Nat
  deriving DecidableEq, Repr

namespace Columns

def all (length : Nat) : Columns := ⟨List.range length, []⟩

/-- All columns in their current arrangement, the pending ones first. -/
def order (columns : Columns) : List Nat := columns.pending ++ columns.spent

def isExhausted (columns : Columns) : Bool := columns.pending.isEmpty

/-- Spend the column in a slot. The last pending column takes over its slot. -/
def consume (columns : Columns) (slot : Nat) : Except BuildError Columns :=
  match columns.pending[slot]? with
  | none => .error (.slotSpent slot)
  | some column =>
    let last := columns.pending.getLastD column
    .ok ⟨(columns.pending.set slot last).dropLast, column :: columns.spent⟩

theorem consume_eq_error_iff {columns : Columns} {slot : Nat} :
    columns.consume slot = .error (.slotSpent slot) ↔ columns.pending.length ≤ slot := by
  unfold consume
  cases hfound : columns.pending[slot]? with
  | none => simpa using hfound
  | some column =>
    have hslot := (List.getElem?_eq_some_iff.mp hfound).1
    simp
    omega

theorem consume_eq_ok {columns next : Columns} {slot : Nat} (h : columns.consume slot = .ok next) :
    ∃ column, columns.pending[slot]? = some column ∧
      next = ⟨(columns.pending.set slot (columns.pending.getLastD column)).dropLast, column :: columns.spent⟩ := by
  unfold consume at h
  cases hfound : columns.pending[slot]? with
  | none => simp [hfound] at h
  | some column =>
    simp only [hfound, Except.ok.injEq] at h
    exact ⟨column, rfl, h.symm⟩

theorem length_pending_of_consume {columns next : Columns} {slot : Nat}
    (h : columns.consume slot = .ok next) : next.pending.length + 1 = columns.pending.length := by
  obtain ⟨column, hfound, rfl⟩ := consume_eq_ok h
  have hslot := (List.getElem?_eq_some_iff.mp hfound).1
  simp
  omega

/-- Replacing a member by the last one and dropping that takes out just the member. -/
private theorem cons_dropLast_set_perm {α : Type} (items : List α) (slot : Nat) (hslot : slot < items.length)
    (spare : α) : List.Perm (items[slot] :: (items.set slot (items.getLastD spare)).dropLast) items := by
  induction items generalizing slot spare with
  | nil => simp at hslot
  | cons first rest ih =>
    cases rest with
    | nil =>
      obtain rfl : slot = 0 := by simpa using hslot
      simp
    | cons second more =>
      cases slot with
      | zero =>
        have hsplit := List.dropLast_concat_getLast (l := second :: more) (by simp)
        simp only [List.getElem_cons_zero, List.set_cons_zero, List.getLastD_cons]
        rw [List.dropLast_cons_of_ne_nil (by simp)]
        have hlast : (second :: more).getLast (by simp) = more.getLastD second := by
          simp [List.getLast_eq_getLastD]
        rw [hlast] at hsplit
        refine List.Perm.cons _ ?_
        conv => rhs; rw [← hsplit]
        exact (List.perm_append_singleton _ _).symm
      | succ slot =>
        have hbound : slot < (second :: more).length := by simpa using hslot
        have hrest := ih slot hbound spare
        simp only [List.getElem_cons_succ, List.set_cons_succ]
        rw [List.dropLast_cons_of_ne_nil (by simp)]
        refine (List.Perm.swap _ _ _).trans (List.Perm.cons _ ?_)
        simpa using hrest

/-- What a step spends: the column in the slot, and no other. -/
theorem consume_inv {columns next : Columns} {slot : Nat} (h : columns.consume slot = .ok next) :
    ∃ column, columns.pending[slot]? = some column ∧ next.spent = column :: columns.spent ∧
      List.Perm (column :: next.pending) columns.pending := by
  obtain ⟨column, hfound, rfl⟩ := consume_eq_ok h
  obtain ⟨hslot, hcolumn⟩ := List.getElem?_eq_some_iff.mp hfound
  have hmoved := cons_dropLast_set_perm columns.pending slot hslot column
  rw [hcolumn] at hmoved
  exact ⟨column, hfound, rfl, hmoved⟩

theorem order_perm_of_consume {columns next : Columns} {slot : Nat}
    (h : columns.consume slot = .ok next) : next.order.Perm columns.order := by
  obtain ⟨column, _, hspent, hmoved⟩ := consume_inv h
  rw [order, hspent]
  exact List.perm_middle.trans (hmoved.append_right columns.spent)

end Columns

end KeywordTree
