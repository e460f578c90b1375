import KeywordTree.Columns
import Mathlib.Data.List.Nodup
import Mathlib.Data.List.Perm.Basic
import Mathlib.Logic.Equiv.Basic

/-! Whole runs of calls that each spend a column. A call moves the last pending column, so a
slot stands for different columns in the course of a run; the spent columns keep its history. -/
namespace KeywordTree.Columns

section Call

variable {columns next : Columns} {slot : Nat}

theorem consume_eq_error {error : BuildError} :
    columns.consume slot = .error error ↔ columns.pending.length ≤ slot ∧ error = .slotSpent slot := by
  constructor
  · intro h
    have he : error = .slotSpent slot := by
      unfold consume at h
      split at h
      · exact (Except.error.inj h).symm
      · cases h
    rw [he] at h
    exact ⟨consume_eq_error_iff.mp h, he⟩
  · rintro ⟨hl, rfl⟩
    exact consume_eq_error_iff.mpr hl

/-- A call exchanges its slot with the last pending one, and leaves the rest of the order. -/
theorem getElem?_order_of_consume (h : columns.consume slot = .ok next) (place : Nat) :
    next.order[place]? = columns.order[Equiv.swap slot (columns.pending.length - 1) place]? := by
  obtain ⟨column, hfound, rfl⟩ := consume_eq_ok h
  have hslot := (List.getElem?_eq_some_iff.mp hfound).1
  have hlast : columns.pending[columns.pending.length - 1]? = some (columns.pending.getLastD column) := by
    rw [List.getLastD_eq_getLast?, List.getLast?_eq_getElem?, List.getElem?_eq_getElem (by omega),
      Option.getD_some]
  -- The boundary after the call lies right before the column just spent.
  rw [order, order, List.getElem?_append, List.getElem?_append, List.getElem?_dropLast, List.length_dropLast,
    List.length_set, List.getElem?_set, Equiv.swap_apply_def]
  grind

theorem eq_iff_order {a b : Columns} : a = b ↔ a.order = b.order ∧ a.pending.length = b.pending.length := by
  constructor
  · rintro rfl
    exact ⟨rfl, rfl⟩
  · rintro ⟨ho, hl⟩
    obtain ⟨hp, hs⟩ := List.append_inj ho hl
    cases a
    cases b
    rw [mk.injEq]
    exact ⟨hp, hs⟩

end Call

/-- Call after call: the columns they yield, in the order of the calls, and what is left. -/
def run (columns : Columns) : List Nat → Except BuildError (List Nat × Columns)
  | [] => .ok ([], columns)
  | slot :: slots =>
    (columns.consume slot).bind fun next =>
      (next.run slots).map fun later => ((columns.pending[slot]?).toList ++ later.1, later.2)

section Run

variable {columns last : Columns} {slot : Nat} {slots yielded : List Nat}

theorem run_cons_inv (h : columns.run (slot :: slots) = .ok (yielded, last)) :
    ∃ column next later, columns.pending[slot]? = some column ∧ columns.consume slot = .ok next ∧
      next.run slots = .ok (later, last) ∧ yielded = column :: later := by
  cases hc : columns.consume slot with
  | error error => simp [run, hc, Except.bind] at h
  | ok next =>
    obtain ⟨column, hcolumn, _⟩ := consume_inv hc
    cases hn : next.run slots with
    | error error => simp [run, hc, hn, Except.bind, Except.map] at h
    | ok later =>
      simp only [run, hc, hn, hcolumn, Except.bind, Except.map, Option.toList_some, List.singleton_append,
        Except.ok.injEq, Prod.mk.injEq] at h
      obtain ⟨rfl, rfl⟩ := h
      exact ⟨column, next, later.1, hcolumn, rfl, hn, rfl⟩

theorem run_concat (h : columns.run slots = .ok (yielded, last)) (slot : Nat) :
    columns.run (slots ++ [slot]) =
      (last.consume slot).map fun next => (yielded ++ (last.pending[slot]?).toList, next) := by
  induction slots generalizing columns yielded with
  | nil =>
    cases h
    rw [List.nil_append, run]
    cases last.consume slot <;> simp [run, Except.bind, Except.map]
  | cons first slots ih =>
    obtain ⟨column, next, later, hcolumn, hc, hrun, rfl⟩ := run_cons_inv h
    rw [List.cons_append, run, hc, hcolumn, Except.bind, ih hrun]
    cases last.consume slot <;> simp [Except.map]

theorem run_concat_eq_error_iff (h : columns.run slots = .ok (yielded, last)) {error : BuildError} :
    columns.run (slots ++ [slot]) = .error error ↔ last.pending.length ≤ slot ∧ error = .slotSpent slot := by
  rw [run_concat h, ← consume_eq_error]
  cases last.consume slot <;> simp [Except.map]

theorem run_concat_eq_ok (h : columns.run slots = .ok (yielded, last)) {column : Nat}
    (hcolumn : last.pending[slot]? = some column) :
    ∃ next, last.consume slot = .ok next ∧ columns.run (slots ++ [slot]) = .ok (yielded ++ [column], next) := by
  rw [run_concat h, hcolumn]
  cases hc : last.consume slot with
  | error error =>
    have hpending := (List.getElem?_eq_some_iff.mp hcolumn).1
    exact absurd (consume_eq_error.mp hc).1 (Nat.not_le.mpr hpending)
  | ok next => exact ⟨next, rfl, rfl⟩

/-- What a run has yielded is what it has spent, the latest first, and with what is left
makes up what was pending before. -/
theorem run_account (h : columns.run slots = .ok (yielded, last)) :
    yielded.length = slots.length ∧ last.spent = yielded.reverse ++ columns.spent ∧
      (yielded ++ last.pending).Perm columns.pending := by
  induction slots generalizing columns yielded with
  | nil =>
    cases h
    exact ⟨rfl, rfl, List.Perm.refl _⟩
  | cons slot slots ih =>
    obtain ⟨column, next, later, hcolumn, hc, hrun, rfl⟩ := run_cons_inv h
    obtain ⟨hlength, hspent, hperm⟩ := ih hrun
    obtain ⟨column', hcolumn', hnext, hmoved⟩ := consume_inv hc
    obtain rfl : column' = column := Option.some.inj (hcolumn'.symm.trans hcolumn)
    refine ⟨by simp [hlength], by simp [hspent, hnext], ?_⟩
    exact (hperm.cons column').trans hmoved

theorem slots_eq_of_yielded_eq (hd : columns.pending.Nodup) {slots' : List Nat} {last' : Columns}
    (h : columns.run slots = .ok (yielded, last)) (h' : columns.run slots' = .ok (yielded, last')) :
    slots = slots' := by
  induction slots generalizing columns yielded slots' with
  | nil =>
    cases h
    exact (List.eq_nil_of_length_eq_zero (run_account h').1.symm).symm
  | cons slot slots ih =>
    obtain ⟨column, next, later, hcolumn, hc, hrun, rfl⟩ := run_cons_inv h
    cases slots' with
    | nil => cases h'
    | cons slot' slots' =>
      obtain ⟨column', next', later', hcolumn', hc', hrun', heq⟩ := run_cons_inv h'
      obtain ⟨rfl, rfl⟩ := List.cons.inj heq
      obtain rfl : slot = slot' :=
        (List.getElem?_inj (List.getElem?_eq_some_iff.mp hcolumn).1 hd).mp (hcolumn.trans hcolumn'.symm)
      obtain rfl : next = next' := Except.ok.inj (hc.symm.trans hc')
      obtain ⟨_, _, _, hmoved⟩ := consume_inv hc
      have hd' : next.pending.Nodup := (List.nodup_cons.mp (hmoved.nodup_iff.mpr hd)).2
      rw [ih hd' hrun hrun']

end Run

section All

variable {n : Nat} {slots yielded : List Nat} {columns : Columns}

theorem run_all_account (h : (all n).run slots = .ok (yielded, columns)) :
    columns.pending.length + slots.length = n ∧ columns.spent = yielded.reverse ∧
      (yielded ++ columns.pending).Perm (List.range n) := by
  obtain ⟨hlength, hspent, hperm⟩ := run_account h
  refine ⟨?_, by simpa [all] using hspent, hperm⟩
  have htotal := hperm.length_eq
  simp only [all, List.length_append, List.length_range] at htotal
  omega

theorem order_run_perm (h : (all n).run slots = .ok (yielded, columns)) : columns.order.Perm (List.range n) := by
  obtain ⟨_, hspent, hperm⟩ := run_all_account h
  rw [order, hspent]
  exact ((List.reverse_perm yielded).append_left _).trans (List.perm_append_comm.trans hperm)

theorem mem_pending_run (h : (all n).run slots = .ok (yielded, columns)) (column : Nat) :
    column ∈ columns.pending ↔ column < n ∧ column ∉ yielded := by
  obtain ⟨_, _, hperm⟩ := run_all_account h
  have hdisjoint := (List.nodup_append.mp (hperm.nodup_iff.mpr List.nodup_range)).2.2
  have hmem : column ∈ yielded ++ columns.pending ↔ column < n := hperm.mem_iff.trans List.mem_range
  rw [List.mem_append] at hmem
  rw [← hmem]
  constructor
  · intro hp
    exact ⟨.inr hp, fun hy => hdisjoint column hy column hp rfl⟩
  · rintro ⟨hy | hp, hn⟩
    · exact absurd hy hn
    · exact hp

theorem exhausted_run_iff (h : (all n).run slots = .ok (yielded, columns)) :
    (columns.isExhausted = true ↔ slots.length = n) ∧ (columns.isExhausted = true → yielded.Perm (List.range n)) := by
  obtain ⟨hcount, _, hperm⟩ := run_all_account h
  have hexhausted : columns.isExhausted = true ↔ columns.pending = [] := List.isEmpty_iff
  rw [hexhausted]
  constructor
  · rw [← List.length_eq_zero_iff]
    omega
  · intro hnil
    rwa [hnil, List.append_nil] at hperm

/-- A state tells the slots by which it was reached, for it has spent what they yielded. -/
theorem eq_iff_slots_eq {slots' yielded' : List Nat} {columns' : Columns}
    (h : (all n).run slots = .ok (yielded, columns)) (h' : (all n).run slots' = .ok (yielded', columns')) :
    columns = columns' ↔ slots = slots' := by
  constructor
  · rintro rfl
    obtain rfl : yielded = yielded' :=
      List.reverse_injective ((run_all_account h).2.1.symm.trans (run_all_account h').2.1)
    exact slots_eq_of_yielded_eq List.nodup_range h h'
  · rintro rfl
    rw [h] at h'
    cases h'
    rfl

end All

/-- Runs of calls from all `n` columns. After `k` calls `n - k` columns are pending, the first
of a full order that rearranges all columns; the other `k` are those that were yielded, the
latest first, and the pending ones are those that were not. So the columns are exhausted
after `n` calls, which yielded each of them once. The next call fails exactly if its slot is
not below the number of pending columns; else it yields the column in the slot and exchanges
this with the last pending one. Two runs end alike, in the order and in the number of pending
columns, exactly if they asked for the same slots. -/
theorem consume_runs (n : Nat) :
    (∀ slots yielded columns, (all n).run slots = .ok (yielded, columns) →
      (slots.length ≤ n ∧ columns.pending.length = n - slots.length) ∧
      columns.order.Perm (List.range n) ∧
      columns.pending = columns.order.take (n - slots.length) ∧
      columns.order.drop (n - slots.length) = yielded.reverse ∧
      (∀ column, column ∈ columns.pending ↔ column < n ∧ column ∉ yielded) ∧
      (columns.isExhausted = true ↔ slots.length = n) ∧
      (columns.isExhausted = true → yielded.Perm (List.range n)) ∧
      (∀ slot error, (all n).run (slots ++ [slot]) = .error error ↔
        columns.pending.length ≤ slot ∧ error = .slotSpent slot) ∧
      ∀ slot column, columns.pending[slot]? = some column →
        ∃ next, (all n).run (slots ++ [slot]) = .ok (yielded ++ [column], next) ∧
          ∀ place, next.order[place]? = columns.order[Equiv.swap slot (columns.pending.length - 1) place]?) ∧
    ∀ slots slots' yielded yielded' a b, (all n).run slots = .ok (yielded, a) →
      (all n).run slots' = .ok (yielded', b) →
      (a = b ↔ slots = slots') ∧ (a = b ↔ a.order = b.order ∧ a.pending.length = b.pending.length) := by
  refine ⟨fun slots yielded columns h => ?_, fun _ _ _ _ _ _ h h' => ⟨eq_iff_slots_eq h h', eq_iff_order⟩⟩
  obtain ⟨hcount, hspent, _⟩ := run_all_account h
  obtain ⟨hexhausted, honce⟩ := exhausted_run_iff h
  have hpending : columns.pending.length = n - slots.length := by omega
  refine ⟨⟨by omega, hpending⟩, order_run_perm h, ?_, ?_, mem_pending_run h, hexhausted, honce,
    fun slot error => run_concat_eq_error_iff h, fun slot column hcolumn => ?_⟩
  · rw [order, ← hpending, List.take_left]
  · rw [order, ← hpending, List.drop_left, hspent]
  · obtain ⟨next, hc, hrun⟩ := run_concat_eq_ok h hcolumn
    exact ⟨next, hrun, getElem?_order_of_consume hc⟩

/-- Three of four columns are spent; slot 1 first stands for column 1 and then for column 3,
which took it over. Only one slot is left, and no other run comes to this state. -/
theorem consume_runs_four : (all 4).run [1, 0, 1] = .ok ([1, 0, 3], ⟨[2], [3, 0, 1]⟩) ∧
    (∀ column, column ∈ [2] ↔ column < 4 ∧ column ∉ [1, 0, 3]) ∧
    (all 4).run [1, 0, 1, 1] = .error (.slotSpent 1) ∧
    ∀ slots yielded, (all 4).run slots = .ok (yielded, ⟨[2], [3, 0, 1]⟩) → slots = [1, 0, 1] := by
  have h : (all 4).run [1, 0, 1] = .ok ([1, 0, 3], ⟨[2], [3, 0, 1]⟩) := rfl
  obtain ⟨hstate, hsame⟩ := consume_runs 4
  obtain ⟨_, _, _, _, hmem, _, _, hfails, _⟩ := hstate _ _ _ h
  refine ⟨h, hmem, (hfails 1 _).mpr ⟨by decide, rfl⟩, fun slots yielded h' => ?_⟩
  exact (hsame _ _ _ _ _ _ h' h).1.mp rfl

end KeywordTree.Columns
