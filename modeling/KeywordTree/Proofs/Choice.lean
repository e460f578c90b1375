import KeywordTree.Proofs.Measure

/-! What the choice of a column returns. The scan of the pending columns ends at the first
that some word lacks or on which all words agree; where there is none, the earliest column
with the fewest letters is chosen, or the earliest with the narrowest range of codes. -/
namespace KeywordTree

section First

variable {α : Type} {p : α → Prop} {items : List α} {i j : Nat} {a b : α}

/-- The first slot of a list that holds an item with a property. -/
structure FirstAt (p : α → Prop) (items : List α) (slot : Nat) (item : α) : Prop where
  found : items[slot]? = some item
  holds : p item
  earlier : ∀ k other, k < slot → items[k]? = some other → ¬ p other

def Least (size : α → Nat) (items : List α) (item : α) : Prop := ∀ other ∈ items, size item ≤ size other

namespace FirstAt

theorem mem (h : FirstAt p items i a) : a ∈ items := List.mem_of_getElem? h.found

theorem unique (h : FirstAt p items i a) (h' : FirstAt p items j b) : i = j ∧ a = b := by
  have hij : i = j := by
    rcases Nat.lt_trichotomy i j with hlt | heq | hlt
    · exact absurd h.holds (h'.earlier i a hlt h.found)
    · exact heq
    · exact absurd h'.holds (h.earlier j b hlt h'.found)
  subst hij
  exact ⟨rfl, Option.some.inj (h.found.symm.trans h'.found)⟩

theorem head (h : p a) : FirstAt p (a :: items) 0 a := ⟨rfl, h, by simp⟩

theorem cons (hb : ¬ p b) (h : FirstAt p items i a) : FirstAt p (b :: items) (i + 1) a := by
  refine ⟨by simpa using h.found, h.holds, fun k other hk ho => ?_⟩
  cases k with
  | zero => exact Option.some.inj ho ▸ hb
  | succ k => exact h.earlier k other (by omega) (by simpa using ho)

theorem of_cons (hb : ¬ p b) (h : FirstAt p (b :: items) i a) : ∃ j, i = j + 1 ∧ FirstAt p items j a := by
  cases i with
  | zero => exact absurd h.holds (Option.some.inj h.found ▸ hb)
  | succ j =>
    refine ⟨j, rfl, by simpa using h.found, h.holds, fun k other hk ho => ?_⟩
    exact h.earlier (k + 1) other (by omega) (by simpa using ho)

theorem congr {q : α → Prop} (hpq : ∀ item ∈ items, p item ↔ q item) (h : FirstAt p items i a) :
    FirstAt q items i a where
  found := h.found
  holds := (hpq a h.mem).mp h.holds
  earlier k other hk ho := mt (hpq other (List.mem_of_getElem? ho)).mpr (h.earlier k other hk ho)

theorem least_congr {size size' : α → Nat} (hs : ∀ item ∈ items, size item = size' item)
    (h : FirstAt (Least size items) items i a) : FirstAt (Least size' items) items i a := by
  apply h.congr
  intro item hi
  exact forall₂_congr fun other ho => by rw [hs item hi, hs other ho]

end FirstAt

theorem exists_firstAt (h : ∃ item ∈ items, p item) : ∃ i a, FirstAt p items i a := by
  induction items with
  | nil => simp at h
  | cons first rest ih =>
    by_cases hp : p first
    · exact ⟨0, first, .head hp⟩
    · obtain ⟨i, a, hi⟩ := ih (by simpa [hp] using h)
      exact ⟨i + 1, a, hi.cons hp⟩

theorem exists_firstLeast (size : α → Nat) (h : items ≠ []) : ∃ a, firstLeast size items = some a := by
  obtain ⟨first, rest, rfl⟩ := List.exists_cons_of_ne_nil h
  rw [firstLeast]
  cases firstLeast size rest with
  | none => exact ⟨first, rfl⟩
  | some b =>
    dsimp only
    split
    · exact ⟨b, rfl⟩
    · exact ⟨first, rfl⟩

/-- Of the items that are least the first is taken. -/
theorem firstAt_of_firstLeast {size : α → Nat} (h : firstLeast size items = some a) :
    ∃ i, FirstAt (Least size items) items i a := by
  induction items generalizing a with
  | nil => cases h
  | cons first rest ih =>
    rw [firstLeast] at h
    cases hr : firstLeast size rest with
    | none =>
      have hnil : rest = [] := by
        by_contra hne
        obtain ⟨b, hb⟩ := exists_firstLeast size hne
        rw [hb] at hr
        cases hr
      rw [hr] at h
      obtain rfl := Option.some.inj h
      exact ⟨0, .head (by simp [Least, hnil])⟩
    | some b =>
      obtain ⟨i, hi⟩ := ih hr
      have hleast : ∀ other ∈ rest, size b ≤ size other := hi.holds
      simp only [hr] at h
      split at h
      · -- The first item is greater, and no other has become least by adding it.
        rename_i hlt
        obtain rfl := Option.some.inj h
        have hfirst : ¬ Least size (first :: rest) first := fun hl =>
          absurd (hl b (List.mem_cons_of_mem first hi.mem)) (by omega)
        refine ⟨i + 1, .cons hfirst (hi.congr fun item _ => ?_)⟩
        rw [Least, Least, List.forall_mem_cons]
        exact (and_iff_right_of_imp fun hl => Nat.le_of_lt (Nat.lt_of_le_of_lt (hl b hi.mem) hlt)).symm
      · rename_i hle
        obtain rfl := Option.some.inj h
        refine ⟨0, .head ?_⟩
        rw [Least, List.forall_mem_cons]
        exact ⟨Nat.le_refl _, fun other ho => (Nat.le_of_not_lt hle).trans (hleast other ho)⟩

theorem firstLeast_eq_some {size : α → Nat} (h : FirstAt (Least size items) items i a) :
    firstLeast size items = some a := by
  obtain ⟨b, hb⟩ := exists_firstLeast size (List.ne_nil_of_mem h.mem)
  obtain ⟨j, hj⟩ := firstAt_of_firstLeast hb
  rw [hb, (h.unique hj).2]

end First

section Scanning

variable {words : List Word} {pending : List Nat} {column i : Nat}

/-- The columns at which a scan ends: some word lacks the column, or all agree on it. -/
def Ends (words : List Word) (column : Nat) : Prop :=
  (¬ ∀ word ∈ words, column < word.length) ∨ Constant words column

theorem not_ends_iff (hne : words ≠ []) :
    ¬ Ends words column ↔ (∀ word ∈ words, column < word.length) ∧ (statsOf words column).span ≠ 1 := by
  rw [Ends, not_or, not_not]
  refine and_congr_right fun hr => ?_
  rw [statsOf_span hne hr, ne_eq, codeSpan_eq_one_iff hne hr]

/-- The measured columns with the slots they stand in, counted from a given one. -/
def measuredFrom (words : List Word) (slot : Nat) (pending : List Nat) : List (Nat × ColumnStats) :=
  (pending.zipIdx slot).map fun entry => (entry.2, statsOf words entry.1)

def Scan.after (entry : Nat × ColumnStats) : Scan → Scan
  | shared slot column => shared slot column
  | measured columns => measured (entry :: columns)

theorem scan_cons_of_not_ends (hne : words ≠ []) (h : ¬ Ends words column) (slot : Nat) (rest : List Nat) :
    (scan words slot (column :: rest)).result =
      (scan words (slot + 1) rest).result.map (Scan.after (slot, statsOf words column)) := by
  obtain ⟨hr, hs⟩ := (not_ends_iff hne).mp h
  simp only [scan, measure_eq_ok hne hr, Traced.result_bind, Traced.result_lift, Traced.ok_bind, Traced.result_note,
    if_neg hs]
  cases (scan words (slot + 1) rest).result with
  | error error => rfl
  | ok found => cases found <;> rfl

theorem scan_of_ends (hne : words ≠ []) (hf : FirstAt (Ends words) pending i column) (slot : Nat) :
    ((¬ ∀ word ∈ words, column < word.length) → (scan words slot pending).result = .error (.pastEnd column)) ∧
      (Constant words column → (scan words slot pending).result = .ok (.shared (slot + i) column)) := by
  induction pending generalizing i slot with
  | nil => exact absurd hf.mem (by simp)
  | cons first rest ih =>
    by_cases he : Ends words first
    · obtain ⟨rfl, rfl⟩ := hf.unique (.head he)
      constructor
      · intro hr
        simp [scan, measure_eq_error hr]
      · intro hc
        have hspan : (statsOf words column).span = 1 := by
          rw [statsOf_span hne hc.reaches, codeSpan_eq_one_iff hne hc.reaches]
          exact hc
        simp [scan, measure_eq_ok hne hc.reaches, hspan]
    · obtain ⟨j, rfl, hj⟩ := hf.of_cons he
      obtain ⟨hpast, hshared⟩ := ih hj (slot + 1)
      rw [scan_cons_of_not_ends hne he]
      constructor
      · intro hr
        rw [hpast hr]
        rfl
      · intro hc
        rw [hshared hc, show slot + (j + 1) = slot + 1 + j by omega]
        rfl

theorem scan_of_not_ends (hne : words ≠ []) (h : ∀ column ∈ pending, ¬ Ends words column) (slot : Nat) :
    (scan words slot pending).result = .ok (.measured (measuredFrom words slot pending)) := by
  induction pending generalizing slot with
  | nil => rfl
  | cons first rest ih =>
    rw [scan_cons_of_not_ends hne (h first List.mem_cons_self),
      ih (fun column hc => h column (List.mem_cons_of_mem first hc)) (slot + 1)]
    rfl

theorem getElem?_measuredFrom (words : List Word) (pending : List Nat) (k : Nat) :
    (measuredFrom words 0 pending)[k]? = (pending[k]?).map fun column => (k, statsOf words column) := by
  simp [measuredFrom, Function.comp_def]

theorem least_measured_iff {size : ColumnStats → Nat} {k : Nat} :
    Least (fun entry => size entry.2) (measuredFrom words 0 pending) (k, statsOf words column) ↔
      Least (fun c => size (statsOf words c)) pending column := by
  rw [Least, measuredFrom, List.forall_mem_map, Least]
  conv_rhs => rw [← List.zipIdx_map_fst 0 pending, List.forall_mem_map]

theorem firstLeast_measured {size : ColumnStats → Nat}
    (h : FirstAt (Least (fun c => size (statsOf words c)) pending) pending i column) :
    firstLeast (fun entry => size entry.2) (measuredFrom words 0 pending) = some (i, statsOf words column) := by
  apply firstLeast_eq_some
  refine ⟨by rw [getElem?_measuredFrom, h.found]; rfl, least_measured_iff.mpr h.holds, fun k other hk ho => ?_⟩
  rw [getElem?_measuredFrom, Option.map_eq_some_iff] at ho
  obtain ⟨c, hc, rfl⟩ := ho
  exact mt least_measured_iff.mp (h.earlier k c hk hc)

end Scanning

/-- The choices that the pending columns of words allow. There is at most one: past a
column where the scan ends nothing counts, and among equals the first slot does. -/
inductive Selects (config : Config) (words : List Word) (pending : List Nat) : Except BuildError Choice → Prop where
  | pastEnd {slot column : Nat} (hf : FirstAt (Ends words) pending slot column)
    (hr : ¬ ∀ word ∈ words, column < word.length) : Selects config words pending (.error (.pastEnd column))
  | shared {slot column : Nat} (hf : FirstAt (Ends words) pending slot column) (hc : Constant words column) :
    Selects config words pending (.ok ⟨slot, column, .ifChain⟩)
  | exhausted {first : Word} {rest : List Word} (hw : words = first :: rest) (hp : pending = []) :
    Selects config words pending (.error (.columnsExhausted first.length (words.map Word.text)))
  | fewest {slot column : Nat} (hn : ∀ c ∈ pending, ¬ Ends words c)
    (hf : FirstAt (Least (letterCount words) pending) pending slot column)
    (ht : letterCount words column ≤ config.ifThreshold) : Selects config words pending (.ok ⟨slot, column, .ifChain⟩)
  | narrowest {slot column : Nat} (hn : ∀ c ∈ pending, ¬ Ends words c)
    (hm : ∀ c ∈ pending, config.ifThreshold < letterCount words c)
    (hf : FirstAt (Least (codeSpan words) pending) pending slot column) :
    Selects config words pending (.ok ⟨slot, column, .switch⟩)

section Selecting

variable {config : Config} {words : List Word} {pending : List Nat}

theorem exists_least (size : Nat → Nat) (hp : pending ≠ []) :
    ∃ slot column, FirstAt (Least size pending) pending slot column := by
  obtain ⟨column, hc⟩ := exists_firstLeast size hp
  obtain ⟨slot, hs⟩ := firstAt_of_firstLeast hc
  exact ⟨slot, column, hs⟩

theorem exists_selects (config : Config) (hne : words ≠ []) (pending : List Nat) :
    ∃ result, Selects config words pending result := by
  by_cases he : ∃ column ∈ pending, Ends words column
  · obtain ⟨slot, column, hf⟩ := exists_firstAt he
    rcases hf.holds with hr | hc
    · exact ⟨_, .pastEnd hf hr⟩
    · exact ⟨_, .shared hf hc⟩
  · have hn : ∀ column ∈ pending, ¬ Ends words column := fun column hc h => he ⟨column, hc, h⟩
    by_cases hp : pending = []
    · obtain ⟨first, rest, hw⟩ := List.exists_cons_of_ne_nil hne
      exact ⟨_, .exhausted hw hp⟩
    · obtain ⟨slot, column, hf⟩ := exists_least (letterCount words) hp
      by_cases ht : letterCount words column ≤ config.ifThreshold
      · exact ⟨_, .fewest hn hf ht⟩
      · obtain ⟨slot', column', hf'⟩ := exists_least (codeSpan words) hp
        refine ⟨_, .narrowest hn (fun c hc => ?_) hf'⟩
        exact Nat.lt_of_lt_of_le (Nat.lt_of_not_le ht) (hf.holds c hc)

theorem choose_of_not_ends (hne : words ≠ []) (hn : ∀ c ∈ pending, ¬ Ends words c) {fewest narrowest i j : Nat}
    (hf : FirstAt (Least (letterCount words) pending) pending i fewest)
    (hs : FirstAt (Least (codeSpan words) pending) pending j narrowest) :
    (choose config words pending).result = .ok (if letterCount words fewest ≤ config.ifThreshold
      then ⟨i, fewest, .ifChain⟩ else ⟨j, narrowest, .switch⟩) := by
  have hreaches (c : Nat) (hc : c ∈ pending) : ∀ word ∈ words, c < word.length := ((not_ends_iff hne).mp (hn c hc)).1
  have hcount : firstLeast (fun entry => entry.2.distinct) (measuredFrom words 0 pending) =
      some (i, statsOf words fewest) := by
    apply firstLeast_measured
    exact hf.least_congr fun c hc => (statsOf_distinct (hreaches c hc)).symm
  have hspan : firstLeast (fun entry => entry.2.span) (measuredFrom words 0 pending) =
      some (j, statsOf words narrowest) := by
    apply firstLeast_measured
    exact hs.least_congr fun c hc => (statsOf_span hne (hreaches c hc)).symm
  obtain ⟨first, rest, rfl⟩ := List.exists_cons_of_ne_nil hne
  simp only [choose, Traced.result_bind, scan_of_not_ends hne hn, Traced.ok_bind, hcount, hspan,
    statsOf_distinct (hreaches fewest hf.mem)]
  split <;> rfl

theorem Selects.result_eq (hne : words ≠ []) {result : Except BuildError Choice}
    (h : Selects config words pending result) : (choose config words pending).result = result := by
  obtain ⟨first, rest, rfl⟩ := List.exists_cons_of_ne_nil hne
  cases h with
  | pastEnd hf hr => simp [choose, (scan_of_ends hne hf 0).1 hr]
  | shared hf hc => simp [choose, (scan_of_ends hne hf 0).2 hc]
  | exhausted hw hp =>
    cases hw
    subst hp
    rfl
  | fewest hn hf ht =>
    obtain ⟨_, _, hs⟩ := exists_least (codeSpan (first :: rest)) (List.ne_nil_of_mem hf.mem)
    rw [choose_of_not_ends hne hn hf hs, if_pos ht]
  | narrowest hn hm hf =>
    obtain ⟨_, fewest, hc⟩ := exists_least (letterCount (first :: rest)) (List.ne_nil_of_mem hf.mem)
    rw [choose_of_not_ends hne hn hc hf, if_neg (Nat.not_le_of_lt (hm fewest hc.mem))]

theorem result_eq_iff_selects (hne : words ≠ []) {result : Except BuildError Choice} :
    (choose config words pending).result = result ↔ Selects config words pending result := by
  constructor
  · rintro rfl
    obtain ⟨result, hs⟩ := exists_selects config hne pending
    rw [hs.result_eq hne]
    exact hs
  · exact Selects.result_eq hne

theorem Selects.getElem?_slot {choice : Choice} (h : Selects config words pending (.ok choice)) :
    pending[choice.slot]? = some choice.column := by
  cases h with
  | shared hf _ => exact hf.found
  | fewest _ hf _ => exact hf.found
  | narrowest _ _ hf => exact hf.found

theorem choose_result (config : Config) (hne : words ≠ [])
    (hp : pending ≠ []) (hr : ∀ column ∈ pending, ∀ word ∈ words, column < word.length) :
    ∃ choice, (choose config words pending).result = .ok choice ∧
      pending[choice.slot]? = some choice.column := by
  obtain ⟨result, hs⟩ := exists_selects config hne pending
  cases result with
  | ok choice => exact ⟨choice, hs.result_eq hne, hs.getElem?_slot⟩
  | error error =>
    cases hs with
    | pastEnd hf hn => exact absurd (hr _ hf.mem) hn
    | exhausted _ hnil => exact absurd hnil hp

end Selecting

namespace SameTexts

variable {a b : List Word}

theorem scan_eq (h : SameTexts a b) (slot : Nat) (pending : List Nat) : scan a slot pending = scan b slot pending := by
  induction pending generalizing slot with
  | nil => rfl
  | cons column rest ih => simp only [scan, h.measure_eq, ih]

/-- The same choice is made for the same texts. Only the error for exhausted columns
reports more of the words than the texts that occur. -/
theorem choose_eq (h : SameTexts a b) {config : Config} {pending : List Nat} {choice : Choice}
    (hc : (choose config a pending).result = .ok choice) : (choose config b pending).result = .ok choice := by
  match a, b with
  | [], _ => cases hc
  | _ :: _, [] => exact absurd (h.eq_nil_iff.mpr rfl) (by simp)
  | first :: rest, first' :: rest' =>
    simp only [choose, Traced.result_bind, Traced.bind_eq_ok] at hc ⊢
    obtain ⟨found, hs, hc⟩ := hc
    refine ⟨found, h.scan_eq 0 pending ▸ hs, ?_⟩
    cases found with
    | shared slot column => exact hc
    | measured columns =>
      dsimp only at hc ⊢
      split at hc
      · exact hc
      · cases hc

end SameTexts

/-- The choice of a column is its specification, for all words and all pending columns, in
any order and with repeats. It reads past the end exactly if the scan meets a column that
some word lacks before one on which all agree; the first column on which all agree is taken
by itself; with no column left the texts are reported; else the first slot with the fewest
letters is taken if these are within the threshold, and the first with the narrowest range
of codes if not. A choice names the column in its slot, and it is the same for every list
of the same words, in any order and number. -/
theorem choose_iff_selects (config : Config) {words : List Word} (hne : words ≠ []) (pending : List Nat) :
    (∀ result, (choose config words pending).result = result ↔ Selects config words pending result) ∧
    ∀ choice, (choose config words pending).result = .ok choice →
      pending[choice.slot]? = some choice.column ∧
      ∀ others, (∀ word, word ∈ others ↔ word ∈ words) → (choose config others pending).result = .ok choice := by
  refine ⟨fun result => result_eq_iff_selects hne, fun choice hc => ⟨?_, fun others ho => ?_⟩⟩
  · exact ((result_eq_iff_selects hne).mp hc).getElem?_slot
  · have hsame : SameTexts words others := by
      intro text
      simp only [List.mem_map, ho]
    exact hsame.choose_eq hc

/-- The words `kw` and `mx`, which differ in both columns. -/
def kwMx : List Word := [⟨8, [107, 119], by decide, by decide⟩, ⟨9, [109, 120], by decide, by decide⟩]

/-- Of two slots with the narrower column the first is taken, whatever copies of the words
there are; and a column that neither word has ends the scan. -/
theorem choose_iff_selects_kwMx : kwMx ≠ [] ∧
    Selects ⟨1, 4, 1⟩ kwMx [0, 1, 1] (.ok ⟨1, 1, .switch⟩) ∧
    (choose ⟨1, 4, 1⟩ (kwMx.reverse ++ kwMx) [0, 1, 1]).result = .ok ⟨1, 1, .switch⟩ ∧
    Selects ⟨1, 4, 1⟩ kwMx [0, 5, 1] (.error (.pastEnd 5)) := by
  have hne : kwMx ≠ [] := by decide
  have hc : (choose ⟨1, 4, 1⟩ kwMx [0, 1, 1]).result = .ok ⟨1, 1, .switch⟩ := by decide +kernel
  have hp : (choose ⟨1, 4, 1⟩ kwMx [0, 5, 1]).result = .error (.pastEnd 5) := by decide +kernel
  obtain ⟨hiff, hsame⟩ := choose_iff_selects ⟨1, 4, 1⟩ hne [0, 1, 1]
  refine ⟨hne, (hiff _).mp hc, (hsame _ hc).2 _ ?_, ((choose_iff_selects ⟨1, 4, 1⟩ hne [0, 5, 1]).1 _).mp hp⟩
  intro word
  simp

end KeywordTree
