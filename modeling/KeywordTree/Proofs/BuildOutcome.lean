import KeywordTree.Proofs.Encoding
import KeywordTree.Proofs.Growth

/-! The corpus alone decides how a construction ends: a corpus without repeated texts
has a tree, and a repeated text exhausts the columns. -/
namespace KeywordTree

/-- A construction from words succeeds if their texts are distinct, and else reports
that the columns are exhausted. No other end is possible. -/
def Settled {α : Type} (words : List Word) (result : Except BuildError α) : Prop :=
  (∃ value, result = .ok value) ∧ Distinct words ∨
    (∃ length texts, result = .error (.columnsExhausted length texts)) ∧ ¬ Distinct words

namespace Settled

variable {α β : Type} {words : List Word} {result : Except BuildError α}

theorem of_iff {others : List Word} (h : Settled words result) (hd : Distinct words ↔ Distinct others) :
    Settled others result := by
  rw [Settled, ← hd]
  exact h

theorem bind (h : Settled words result) (next : α → β) :
    Settled words (result >>= fun value => .ok (next value)) := by
  rcases h with ⟨⟨value, rfl⟩, hd⟩ | ⟨⟨length, texts, rfl⟩, hd⟩
  · exact .inl ⟨⟨next value, rfl⟩, hd⟩
  · exact .inr ⟨⟨length, texts, rfl⟩, hd⟩

end Settled

/-- The first group that cannot be settled by a tree ends the construction of all arms. -/
private theorem growArms_settled {grow : Nat → List Word → Traced Node} {groups : List (Nat × List Word)}
    (h : ∀ group ∈ groups, Settled group.2 (grow group.1 group.2).result) :
    (∃ arms, (growArms grow groups).result = .ok arms) ∧ (∀ group ∈ groups, Distinct group.2) ∨
      (∃ length texts, (growArms grow groups).result = .error (.columnsExhausted length texts)) ∧
        ¬ ∀ group ∈ groups, Distinct group.2 := by
  induction groups with
  | nil => exact .inl ⟨⟨[], rfl⟩, by simp⟩
  | cons group rest ih =>
    simp only [growArms, Traced.result_bind, List.forall_mem_cons]
    rcases h group List.mem_cons_self with ⟨⟨node, hn⟩, hd⟩ | ⟨⟨length, texts, hn⟩, hd⟩
    · rw [hn]
      rcases ih fun g hg => h g (List.mem_cons_of_mem group hg) with ⟨⟨arms, hr⟩, hds⟩ | ⟨⟨length, texts, hr⟩, hds⟩
      · exact .inl ⟨⟨(group.1, node) :: arms, by rw [Traced.ok_bind, hr]; rfl⟩, hd, hds⟩
      · exact .inr ⟨⟨length, texts, by rw [Traced.ok_bind, hr]; rfl⟩, fun hall => hds hall.2⟩
    · exact .inr ⟨⟨length, texts, by rw [hn]; rfl⟩, fun hall => hd hall.1⟩

theorem growArms_groupBy_settled {grow : Nat → List Word → Traced Node} {key : Word → Nat} {words : List Word}
    (hkey : ∀ a b : Word, a.letters = b.letters → key a = key b)
    (h : ∀ k ∈ ascending (words.map key), Settled (groupOf key words k) (grow k (groupOf key words k)).result) :
    Settled words (growArms grow (groupBy key words)).result := by
  have hg : ∀ group ∈ groupBy key words, Settled group.2 (grow group.1 group.2).result := by
    rw [groupBy_eq_map, List.forall_mem_map]
    exact h
  have hd : (∀ group ∈ groupBy key words, Distinct group.2) ↔ Distinct words := by
    rw [groupBy_eq_map, List.forall_mem_map]
    exact (distinct_iff_groups hkey words).symm
  have hs := growArms_settled hg
  rw [hd] at hs
  exact hs

private theorem leaf_settled (config : Config) {length : Nat} {word : Word} {columns : Columns}
    (h : Fits length [word] columns) : Settled [word] (leaf config word columns).result := by
  refine .inl ⟨?_, List.nodup_singleton _⟩
  obtain ⟨checks, hc⟩ := exists_checks fun column hm => h.pending_lt hm word List.mem_cons_self
  rw [leaf]
  split
  · exact ⟨_, rfl⟩
  · split
    · exact ⟨_, rfl⟩
    · exact ⟨.verify checks word .reject, by simp [hc]⟩

/-- At every node that fits, nothing is read past the end of a word and no slot is spent
twice; what is left when the columns are is one text several times. -/
theorem dispatchColumns_settled (config : Config) {length : Nat} {words : List Word} {columns : Columns}
    (h : Fits length words columns) : Settled words (dispatchColumns config words columns).result := by
  induction h using Fits.induct config with
  | alone h =>
    rw [dispatchColumns]
    exact leaf_settled config h
  | exhausted h hw hp =>
    obtain ⟨letters, he⟩ := h.exists_replicate hp
    rw [h.exhausted_result config hw hp]
    refine .inr ⟨⟨_, _, rfl⟩, fun hd => ?_⟩
    rw [Distinct, he, List.nodup_replicate] at hd
    omega
  | dispatch h hw hc hr ih =>
    rw [h.dispatch_result hw hc hr]
    exact Settled.bind (growArms_groupBy_settled (fun _ _ => codeIn_congr _) fun k hk => (ih k hk).2) _

theorem build_settled (config : Config) {corpus : List Word} (hne : corpus ≠ []) :
    Settled corpus (build config corpus).result := by
  have hs : Settled (canonical corpus) (growArms (fun length group =>
      dispatchColumns config group (Columns.all length)) (byLength (canonical corpus))).result := by
    refine growArms_groupBy_settled (fun _ _ => length_congr) fun k hk => ?_
    exact dispatchColumns_settled config (Fits.start (canonical corpus) hk)
  rw [build_result config hne]
  exact (Settled.bind hs _).of_iff (Distinct.perm (canonical_perm corpus))

theorem distinct_iff_nodup_texts {words : List Word} : Distinct words ↔ (words.map Word.text).Nodup := by
  simp only [Distinct, List.Nodup, List.pairwise_map, ne_eq, Word.text_eq_text_iff]

theorem exists_build (config : Config) {corpus : List Word} (hne : corpus ≠ [])
    (hd : (corpus.map Word.text).Nodup) : ∃ tree, (build config corpus).result = .ok tree := by
  rcases build_settled config hne with ⟨hok, _⟩ | ⟨_, hn⟩
  · exact hok
  · exact absurd (distinct_iff_nodup_texts.mpr hd) hn

def Repeats (corpus : List Word) : Prop :=
  ∃ (i j : Nat) (a b : Word), i < j ∧ corpus[i]? = some a ∧ corpus[j]? = some b ∧ a.text = b.text

theorem not_distinct_iff_repeats (corpus : List Word) : ¬ Distinct corpus ↔ Repeats corpus := by
  rw [Distinct, List.nodup_iff_getElem?_ne_getElem?]
  push Not
  constructor
  · rintro ⟨i, j, hij, hj, he⟩
    rw [List.length_map] at hj
    have hi : i < corpus.length := Nat.lt_trans hij hj
    rw [List.getElem?_map, List.getElem?_map, List.getElem?_eq_getElem hi, List.getElem?_eq_getElem hj] at he
    refine ⟨i, j, corpus[i], corpus[j], hij, List.getElem?_eq_getElem _, List.getElem?_eq_getElem _, ?_⟩
    exact (Word.text_eq_text_iff _ _).mpr (Option.some.inj he)
  · rintro ⟨i, j, a, b, hij, ha, hb, he⟩
    refine ⟨i, j, hij, ?_, ?_⟩
    · rw [List.length_map]
      exact (List.getElem?_eq_some_iff.mp hb).1
    · rw [List.getElem?_map, List.getElem?_map, ha, hb, Option.map_some, Option.map_some,
        (Word.text_eq_text_iff a b).mp he]

/-- A construction ends in exactly one of three ways, and the corpus says in which: it is
empty, it has two entries of one text, or it has a tree. Neither a read past the end of a
word nor a spent slot nor an empty list of candidates can end it. -/
theorem build_outcome_iff (config : Config) (corpus : List Word) :
    ((build config corpus).result = .error .emptyCorpus ↔ corpus = []) ∧
    ((∃ length texts, (build config corpus).result = .error (.columnsExhausted length texts)) ↔
      corpus ≠ [] ∧ Repeats corpus) ∧
    ((∃ tree, (build config corpus).result = .ok tree) ↔ corpus ≠ [] ∧ ¬ Repeats corpus) ∧
    (build config corpus).result ≠ .error .noCandidates ∧
    (∀ column, (build config corpus).result ≠ .error (.pastEnd column)) ∧
    ∀ slot, (build config corpus).result ≠ .error (.slotSpent slot) := by
  rw [← not_distinct_iff_repeats, not_not]
  by_cases hne : corpus = []
  · subst hne
    have he : (build config []).result = .error .emptyCorpus := rfl
    simp [he]
  · rcases build_settled config hne with ⟨⟨tree, hr⟩, hd⟩ | ⟨⟨length, texts, hr⟩, hd⟩
    · simp [hr, hne, hd]
    · simp [hr, hne, hd]

end KeywordTree
