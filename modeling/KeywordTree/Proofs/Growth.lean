import KeywordTree.Proofs.Choice
import KeywordTree.Tree.Build

/-! How trees grow: what holds of the words and columns of every node, and the shapes
a successful construction can have. -/
namespace KeywordTree

/-- The words of a node have one length, the columns are those of that length, and the
words agree on every column that is spent. -/
structure Fits (length : Nat) (words : List Word) (columns : Columns) : Prop where
  nonempty : words ≠ []
  length_eq : ∀ word ∈ words, word.length = length
  order_perm : columns.order.Perm (List.range length)
  agree : ∀ column ∈ columns.spent, ∀ a ∈ words, ∀ b ∈ words, a.codeAt? column = b.codeAt? column

namespace Fits

variable {length : Nat} {words : List Word} {columns : Columns}

theorem pending_lt (h : Fits length words columns) {column : Nat} (hc : column ∈ columns.pending) :
    ∀ word ∈ words, column < word.length := by
  intro word hw
  rw [h.length_eq word hw, ← List.mem_range]
  exact h.order_perm.mem_iff.mp (List.mem_append_left _ hc)

theorem start (corpus : List Word) {k : Nat} (hk : k ∈ ascending (corpus.map Word.length)) :
    Fits k (groupOf Word.length corpus k) (Columns.all k) where
  nonempty := groupOf_ne_nil hk
  length_eq word hw := (mem_groupOf.mp hw).2
  order_perm := by simp [Columns.order, Columns.all]
  agree column hc := by simp [Columns.all] at hc

/-- Dividing by the column that is spent leads to groups that fit again. -/
theorem group (h : Fits length words columns) {slot column : Nat} {remaining : Columns}
    (hs : columns.pending[slot]? = some column) (hr : columns.consume slot = .ok remaining)
    {k : Nat} (hk : k ∈ ascending (words.map (codeIn column))) :
    Fits length (groupOf (codeIn column) words k) remaining where
  nonempty := groupOf_ne_nil hk
  length_eq word hw := h.length_eq word (mem_groupOf.mp hw).1
  order_perm := (Columns.order_perm_of_consume hr).trans h.order_perm
  agree c hc a ha b hb := by
    obtain ⟨spent, hspent, he, _⟩ := Columns.consume_inv hr
    obtain rfl : column = spent := Option.some.inj (hs.symm.trans hspent)
    obtain ⟨hwa, hka⟩ := mem_groupOf.mp ha
    obtain ⟨hwb, hkb⟩ := mem_groupOf.mp hb
    rw [he] at hc
    rcases List.mem_cons.mp hc with rfl | hc
    · have hlt := h.pending_lt (List.mem_of_getElem? hs)
      rw [codeAt?_eq_some (hlt a hwa), codeAt?_eq_some (hlt b hwb), hka, hkb]
    · exact h.agree c hc a hwa b hwb

theorem chosen (h : Fits length words columns) {config : Config} {choice : Choice} {remaining : Columns}
    (hc : (choose config words columns.pending).result = .ok choice)
    (hr : columns.consume choice.slot = .ok remaining) : columns.pending[choice.slot]? = some choice.column := by
  obtain ⟨column, hs, _, _⟩ := Columns.consume_inv hr
  have hp : columns.pending ≠ [] := List.ne_nil_of_mem (List.mem_of_getElem? hs)
  obtain ⟨found, hf, hslot⟩ := choose_result config h.nonempty hp fun c hm => h.pending_lt hm
  obtain rfl : choice = found := Except.ok.inj (hc.symm.trans hf)
  exact hslot

theorem chosen_lt (h : Fits length words columns) {config : Config} {choice : Choice} {remaining : Columns}
    (hc : (choose config words columns.pending).result = .ok choice)
    (hr : columns.consume choice.slot = .ok remaining) : ∀ word ∈ words, choice.column < word.length :=
  h.pending_lt (List.mem_of_getElem? (h.chosen hc hr))

theorem arm (h : Fits length words columns) {config : Config} {choice : Choice} {remaining : Columns}
    (hc : (choose config words columns.pending).result = .ok choice)
    (hr : columns.consume choice.slot = .ok remaining) {arms : List (Nat × Node)}
    (hk : arms.map Prod.fst = ascending (words.map (codeIn choice.column))) {arm : Nat × Node} (ha : arm ∈ arms) :
    Fits length (groupOf (codeIn choice.column) words arm.1) remaining :=
  h.group (h.chosen hc hr) hr (hk ▸ List.mem_map_of_mem ha)

theorem key_letter (h : Fits length words columns) {config : Config} {choice : Choice} {remaining : Columns}
    (hc : (choose config words columns.pending).result = .ok choice)
    (hr : columns.consume choice.slot = .ok remaining) {arms : List (Nat × Node)}
    (hk : arms.map Prod.fst = ascending (words.map (codeIn choice.column))) {arm : Nat × Node} (ha : arm ∈ arms) :
    ∃ code, isLetter code = true ∧ arm.1 = code.toNat := by
  have hkey : arm.1 ∈ ascending (words.map (codeIn choice.column)) := hk ▸ List.mem_map_of_mem ha
  obtain ⟨word, hw, he⟩ := List.mem_map.mp (mem_ascending.mp hkey)
  obtain ⟨code, hletter, hcode, _⟩ := codeIn_letter (h.chosen_lt hc hr word hw)
  exact ⟨code, hletter, he.symm.trans hcode⟩

theorem letters_eq (h : Fits length words columns) (hp : columns.pending = []) {a b : Word}
    (ha : a ∈ words) (hb : b ∈ words) : a.letters = b.letters := by
  have hlen : a.letters.length = b.letters.length := (h.length_eq a ha).trans (h.length_eq b hb).symm
  refine List.ext_getElem hlen fun column hca hcb => ?_
  have hm : column ∈ columns.spent := by
    have hr : column ∈ List.range length := List.mem_range.mpr (h.length_eq a ha ▸ hca)
    simpa [Columns.order, hp] using h.order_perm.mem_iff.mpr hr
  have he := h.agree column hm a ha b hb
  simp only [Word.codeAt?, List.getElem?_eq_getElem hca, List.getElem?_eq_getElem hcb,
    Option.map_some, Option.some.injEq] at he
  exact UInt8.toNat_inj.mp he

theorem exists_replicate (h : Fits length words columns) (hp : columns.pending = []) :
    ∃ letters, words.map Word.letters = List.replicate words.length letters := by
  obtain ⟨first, rest, rfl⟩ := List.exists_cons_of_ne_nil h.nonempty
  refine ⟨first.letters, List.eq_replicate_iff.mpr ⟨List.length_map _, ?_⟩⟩
  rw [List.forall_mem_map]
  intro word hw
  exact h.letters_eq hp hw List.mem_cons_self

end Fits

section Checks

variable {word : Word}

/-- A tail comparison reads the word's own letters, in the order of the columns. -/
theorem checks_inv {columns : List Nat} {checks : List Check} (h : word.checks columns = .ok checks) :
    checks.map Check.column = columns ∧
      ∀ check ∈ checks, word.letters[check.column]? = some check.expected := by
  induction columns generalizing checks with
  | nil =>
    obtain rfl : [] = checks := Except.ok.inj h
    exact ⟨rfl, by simp⟩
  | cons column rest ih =>
    rw [Word.checks] at h
    cases hc : word.letters[column]? with
    | none => simp [hc] at h
    | some expected =>
      cases hr : word.checks rest with
      | error e => simp [hc, hr, Except.map] at h
      | ok found =>
        obtain ⟨hcols, hexp⟩ := ih hr
        simp only [hc, hr, Except.map, Except.ok.injEq] at h
        subst h
        refine ⟨by rw [List.map_cons, hcols], ?_⟩
        intro check hm
        rcases List.mem_cons.mp hm with rfl | hm
        · exact hc
        · exact hexp check hm

theorem exists_checks {columns : List Nat} (h : ∀ column ∈ columns, column < word.length) :
    ∃ checks, word.checks columns = .ok checks := by
  induction columns with
  | nil => exact ⟨[], rfl⟩
  | cons column rest ih =>
    obtain ⟨found, hf⟩ := ih fun c hc => h c (List.mem_cons_of_mem column hc)
    have hlt : column < word.letters.length := h column List.mem_cons_self
    refine ⟨⟨column, word.letters[column]⟩ :: found, ?_⟩
    rw [Word.checks, List.getElem?_eq_getElem hlt, hf]
    rfl

end Checks

theorem growArms_inv {grow : Nat → List Word → Traced Node} {groups : List (Nat × List Word)}
    {arms : List (Nat × Node)} (h : (growArms grow groups).result = .ok arms) :
    arms.map Prod.fst = groups.map Prod.fst ∧
      ∀ arm ∈ arms, ∃ words, (arm.1, words) ∈ groups ∧ (grow arm.1 words).result = .ok arm.2 := by
  induction groups generalizing arms with
  | nil =>
    obtain rfl : [] = arms := Except.ok.inj h
    exact ⟨rfl, by simp⟩
  | cons group rest ih =>
    obtain ⟨key, words⟩ := group
    simp only [growArms, Traced.result_bind, Traced.bind_eq_ok] at h
    obtain ⟨node, hn, others, hr, h⟩ := h
    obtain rfl : (key, node) :: others = arms := Except.ok.inj h
    obtain ⟨hk, hg⟩ := ih hr
    refine ⟨by simp [hk], ?_⟩
    intro arm ha
    rcases List.mem_cons.mp ha with rfl | ha
    · exact ⟨words, List.mem_cons_self, hn⟩
    · obtain ⟨ws, hm, he⟩ := hg arm ha
      exact ⟨ws, List.mem_cons_of_mem _ hm, he⟩

theorem growArms_groupBy_inv {grow : Nat → List Word → Traced Node} {key : Word → Nat} {words : List Word}
    {arms : List (Nat × Node)} (h : (growArms grow (groupBy key words)).result = .ok arms) :
    arms.map Prod.fst = ascending (words.map key) ∧
      ∀ arm ∈ arms, (grow arm.1 (groupOf key words arm.1)).result = .ok arm.2 := by
  obtain ⟨hk, hg⟩ := growArms_inv h
  refine ⟨hk.trans map_fst_groupBy, ?_⟩
  intro arm ha
  obtain ⟨ws, hm, he⟩ := hg arm ha
  obtain rfl : ws = groupOf key words arm.1 := (mem_groupBy.mp hm).2
  exact he

theorem dispatchColumns_result (config : Config) {words : List Word} {columns : Columns}
    (hw : 2 ≤ words.length) (hp : columns.pending ≠ []) :
    (dispatchColumns config words columns).result = (do
      let choice ← (choose config words columns.pending).result
      let remaining ← columns.consume choice.slot
      let groups ← byColumn words choice.column
      let arms ← (growArms (fun _ group => dispatchColumns config group remaining) groups).result
      pure (.dispatch (.column choice.column) choice.mode arms .reject)) := by
  match words, hw with
  | first :: second :: rest, _ =>
    rw [dispatchColumns, if_neg (by simpa [Columns.isExhausted] using hp)]
    simp only [Traced.result_bind, Traced.result_note, Traced.ok_bind]
    congr 1
    funext choice
    split
    · rename_i he
      rw [he]
      rfl
    · rename_i remaining he
      rw [he]
      simp only [Traced.result_bind, Traced.result_lift, Traced.result_pure]
      rfl

namespace Fits

variable {length : Nat} {words : List Word} {columns : Columns}

theorem exhausted_result (h : Fits length words columns) (config : Config) (hw : 2 ≤ words.length)
    (hp : columns.pending = []) :
    (dispatchColumns config words columns).result = .error (.columnsExhausted length (words.map Word.text)) := by
  match words, hw with
  | first :: second :: rest, _ =>
    rw [dispatchColumns, if_pos (by simp [Columns.isExhausted, hp]), h.length_eq first List.mem_cons_self]
    rfl

/-- With words to divide and a column to spend, only the arms can fail. -/
theorem dispatch_result (h : Fits length words columns) {config : Config} (hw : 2 ≤ words.length)
    {choice : Choice} {remaining : Columns} (hc : (choose config words columns.pending).result = .ok choice)
    (hr : columns.consume choice.slot = .ok remaining) :
    (dispatchColumns config words columns).result = (do
      let arms ← (growArms (fun _ group => dispatchColumns config group remaining)
        (groupBy (codeIn choice.column) words)).result
      pure (.dispatch (.column choice.column) choice.mode arms .reject)) := by
  have hp : columns.pending ≠ [] := List.ne_nil_of_mem (List.mem_of_getElem? (h.chosen hc hr))
  rw [dispatchColumns_result config hw hp, hc, Traced.ok_bind, hr, Traced.ok_bind,
    byColumn_eq_ok (h.chosen_lt hc hr), Traced.ok_bind]

end Fits

/-- Induction along a construction: a word alone, words whose columns are exhausted, and
words that the chosen column divides. It is on the number of pending columns, since a
shared column leaves the words as they are. -/
theorem Fits.induct (config : Config) {length : Nat}
    {motive : (words : List Word) → (columns : Columns) → Fits length words columns → Prop}
    (alone : ∀ {word columns} (h : Fits length [word] columns), motive [word] columns h)
    (exhausted : ∀ {words columns} (h : Fits length words columns), 2 ≤ words.length → columns.pending = [] →
      motive words columns h)
    (dispatch : ∀ {words columns choice remaining} (h : Fits length words columns), 2 ≤ words.length →
      (choose config words columns.pending).result = .ok choice → columns.consume choice.slot = .ok remaining →
      (∀ k ∈ ascending (words.map (codeIn choice.column)),
        ∃ hk : Fits length (groupOf (codeIn choice.column) words k) remaining,
          motive (groupOf (codeIn choice.column) words k) remaining hk) → motive words columns h)
    {words : List Word} {columns : Columns} (h : Fits length words columns) : motive words columns h := by
  induction hn : columns.pending.length using Nat.strongRecOn generalizing words columns with
  | ind n ih =>
    match words with
    | [] => exact absurd rfl h.nonempty
    | [word] => exact alone h
    | first :: second :: rest =>
      by_cases hp : columns.pending = []
      · exact exhausted h (by simp) hp
      · obtain ⟨choice, hc, hs⟩ := choose_result config h.nonempty hp fun column hm => h.pending_lt hm
        obtain ⟨remaining, hr⟩ : ∃ remaining, columns.consume choice.slot = .ok remaining := by
          simp [Columns.consume, hs]
        have hlt : remaining.pending.length < n := by
          have := Columns.length_pending_of_consume hr
          omega
        refine dispatch h (by simp) hc hr fun k hk => ?_
        have hgroup := h.group hs hr hk
        exact ⟨hgroup, ih _ hlt hgroup rfl⟩

/-- The trees that a construction from words and columns can end in. -/
inductive Grown (config : Config) : List Word → Columns → Node → Prop where
  | accept {word : Word} {columns : Columns} (hp : columns.pending = []) :
    Grown config [word] columns (.accept word)
  | guess {word : Word} {columns : Columns} (hp : config.tailThreshold < columns.pending.length) :
    Grown config [word] columns (.guess word columns.pending.length)
  | verify {word : Word} {columns : Columns} {checks : List Check} (hne : columns.pending ≠ [])
    (hp : columns.pending.length ≤ config.tailThreshold) (hc : word.checks columns.pending = .ok checks) :
    Grown config [word] columns (.verify checks word .reject)
  | dispatch {words : List Word} {columns remaining : Columns} {choice : Choice} {arms : List (Nat × Node)}
    (hw : 2 ≤ words.length) (hc : (choose config words columns.pending).result = .ok choice)
    (hr : columns.consume choice.slot = .ok remaining)
    (hk : arms.map Prod.fst = ascending (words.map (codeIn choice.column)))
    (hg : ∀ arm ∈ arms, Grown config (groupOf (codeIn choice.column) words arm.1) remaining arm.2) :
    Grown config words columns (.dispatch (.column choice.column) choice.mode arms .reject)

private theorem leaf_grown {config : Config} {word : Word} {columns : Columns} {node : Node}
    (h : (leaf config word columns).result = .ok node) : Grown config [word] columns node := by
  rw [leaf] at h
  split at h
  · rename_i he
    obtain rfl : Node.accept word = node := Except.ok.inj h
    exact .accept (by simpa [Columns.isExhausted] using he)
  · rename_i hne
    have hne : columns.pending ≠ [] := by simpa [Columns.isExhausted] using hne
    split at h
    · rename_i ht
      obtain rfl : Node.guess word columns.pending.length = node := Except.ok.inj h
      exact .guess ht
    · rename_i ht
      obtain ⟨checks, hc, h⟩ := Traced.bind_eq_ok.mp ((Traced.result_bind _ _).symm.trans h)
      obtain rfl : Node.verify checks word .reject = node := Except.ok.inj h
      exact .verify hne (by omega) hc

/-- Every successful construction is one of these. The induction is on the number of
pending columns, since a shared column leaves the words as they are. -/
theorem grown_of_result {config : Config} {words : List Word} {columns : Columns} {node : Node}
    (h : (dispatchColumns config words columns).result = .ok node) : Grown config words columns node := by
  induction hn : columns.pending.length using Nat.strongRecOn generalizing words columns node with
  | ind n ih =>
    match words with
    | [] => rw [dispatchColumns] at h; cases h
    | [word] =>
      rw [dispatchColumns] at h
      exact leaf_grown h
    | first :: second :: rest =>
      have hw : 2 ≤ (first :: second :: rest).length := by simp
      by_cases hp : columns.pending = []
      · rw [dispatchColumns, if_pos (by simp [Columns.isExhausted, hp])] at h
        cases h
      · rw [dispatchColumns_result config hw hp] at h
        simp only [Traced.bind_eq_ok] at h
        obtain ⟨choice, hc, remaining, hr, groups, hb, arms, ha, h⟩ := h
        obtain ⟨_, rfl⟩ := byColumn_inv hb
        obtain rfl := Except.ok.inj h
        obtain ⟨hk, hg⟩ := growArms_groupBy_inv ha
        have hlt : remaining.pending.length < n := by
          have := Columns.length_pending_of_consume hr
          omega
        exact .dispatch hw hc hr hk fun arm harm => ih _ hlt (hg arm harm) rfl

theorem build_result (config : Config) {corpus : List Word} (hne : corpus ≠ []) :
    (build config corpus).result = (do
      let arms ← (growArms (fun length group => dispatchColumns config group (Columns.all length))
        (byLength (canonical corpus))).result
      pure ⟨canonical corpus, .dispatch .length (config.lengthMode (byLength (canonical corpus)).length) arms .reject⟩) := by
  rw [build, if_neg (by simpa using hne)]
  simp only [Traced.result_bind, Traced.result_note, Traced.ok_bind]
  rfl

/-- A built tree holds the corpus in canonical order, and below a dispatch on the length
one grown tree for each length. -/
theorem build_inv {config : Config} {corpus : List Word} {tree : Tree}
    (h : (build config corpus).result = .ok tree) :
    corpus ≠ [] ∧ tree.words = canonical corpus ∧ ∃ arms,
      tree.root = .dispatch .length (config.lengthMode (byLength (canonical corpus)).length) arms .reject ∧
      arms.map Prod.fst = ascending ((canonical corpus).map Word.length) ∧
      ∀ arm ∈ arms, Fits arm.1 (groupOf Word.length (canonical corpus) arm.1) (Columns.all arm.1) ∧
        Grown config (groupOf Word.length (canonical corpus) arm.1) (Columns.all arm.1) arm.2 := by
  have hne : corpus ≠ [] := by
    rintro rfl
    cases h
  rw [build_result config hne] at h
  obtain ⟨arms, ha, h⟩ := Traced.bind_eq_ok.mp h
  obtain rfl := Except.ok.inj h
  obtain ⟨hk, hg⟩ := growArms_groupBy_inv ha
  refine ⟨hne, rfl, arms, rfl, hk, fun arm harm => ⟨?_, grown_of_result (hg arm harm)⟩⟩
  exact Fits.start (canonical corpus) (hk ▸ List.mem_map_of_mem harm)

theorem words_perm_of_build {config : Config} {corpus : List Word} {tree : Tree}
    (h : (build config corpus).result = .ok tree) : tree.words.Perm corpus := by
  rw [(build_inv h).2.1]
  exact canonical_perm corpus

end KeywordTree
