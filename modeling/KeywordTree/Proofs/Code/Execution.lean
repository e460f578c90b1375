import KeywordTree.Generator
import KeywordTree.Proofs.BuildOutcome
import KeywordTree.Proofs.Code.Listing

/-! The text of a built tree, read as a program and run, decides as the tree does. -/
namespace KeywordTree
open Code

theorem Grown.legible {config : Config} {words : List Word} {columns : Columns} {node : Node}
    (h : Grown config words columns node) {length : Nat} (hf : Fits length words columns) : node.Legible := by
  induction h with
  | accept _ => exact .accept _
  | guess _ => exact .guess _ _
  | @verify word columns checks hne _ hc =>
    obtain ⟨hcolumns, hexpected⟩ := checks_inv hc
    refine .verify ?_ (fun check hm => ?_) .reject
    · rintro rfl
      exact hne hcolumns.symm
    · exact List.all_eq_true.mp word.lower _ (List.mem_of_getElem? (hexpected check hm))
  | @dispatch words columns remaining choice arms _ hc hr hk _ ih =>
    refine .dispatch ?_ (fun arm harm => ?_) (fun arm harm => ih arm harm (hf.arm hc hr hk harm)) .reject
    · rw [hk]
      exact nodup_ascending _
    · obtain ⟨code, hletter, hcode⟩ := hf.key_letter hc hr hk harm
      rw [hcode]
      exact prints_letter hletter choice.column

theorem build_legible {config : Config} {corpus : List Word} {tree : Tree}
    (h : (build config corpus).result = .ok tree) : tree.root.Legible := by
  obtain ⟨_, _, arms, hroot, hk, hg⟩ := build_inv h
  rw [hroot]
  refine .dispatch ?_ (fun _ _ => trivial) (fun arm harm => ?_) .reject
  · rw [hk]
    exact nodup_ascending _
  · obtain ⟨hfits, hgrown⟩ := hg arm harm
    exact hgrown.legible hfits

/-- The text generated for a corpus without repeated texts is a program. Its run on any
candidate ends in the verdict of the tree, never goes on from one case into the next, and
reads no column past the end of the candidate. -/
theorem run_render (config : Config) {corpus : List Word} (hne : corpus ≠ [])
    (hd : (corpus.map Word.text).Nodup) {start : String}
    (hs : ∀ c ∈ start.toList, c.isAlpha = true ∨ c = '_') :
    let generator : Generator := ⟨config, .prefixed start⟩
    ∃ tree program, (generator.build corpus).result = .ok tree ∧
      program? generator.vocabulary (generator.render tree) = some program ∧
      ∀ candidate : Candidate,
        (runBlock candidate program).control = .ended (tree.evaluate candidate).verdict ∧
        (runBlock candidate program).falls = 0 ∧
        ∀ k ∈ (runBlock candidate program).reads, k < candidate.length := by
  intro generator
  obtain ⟨tree, h⟩ := exists_build config hne hd
  have hprogram : program? generator.vocabulary (generator.render tree) = some tree.root.program :=
    program?_render (Vocabulary.proper_prefixed hs) (build_legible h) config.baseIndent
  refine ⟨tree, tree.root.program, h, hprogram, fun candidate => ?_⟩
  have hrun := build_faithful h candidate
  exact ⟨hrun.control_eq, hrun.falls_eq, hrun.reads_lt⟩

/-- The words `for` and `do`, with one index. -/
def forDo : List Word := [⟨7, [102, 111, 114], by decide, by decide⟩, ⟨7, [100, 111], by decide, by decide⟩]

/-- For `dx` the text reads both columns and finds no match. -/
theorem run_render_forDo : forDo ≠ [] ∧ (forDo.map Word.text).Nodup ∧
    (∀ c ∈ "kw_".toList, c.isAlpha = true ∨ c = '_') ∧
    ∃ tree program, (build ⟨1, 2, 0⟩ forDo).result = .ok tree ∧
      program? (.prefixed "kw_") (tree.render (.prefixed "kw_") 0) = some program ∧
      (runBlock [100, 120] program).control = .ended (tree.evaluate [100, 120]).verdict ∧
      (runBlock [100, 120] program).falls = 0 ∧ (∀ k ∈ (runBlock [100, 120] program).reads, k < 2) ∧
      tree.evaluate [100, 120] = .rejected ∧ (runBlock [100, 120] program).reads = [0, 1] := by
  have hne : forDo ≠ [] := by decide
  have hd : (forDo.map Word.text).Nodup := by decide +kernel
  have hs : ∀ c ∈ "kw_".toList, c.isAlpha = true ∨ c = '_' := by simp
  obtain ⟨tree, program, h, hp, hrun⟩ := run_render ⟨1, 2, 0⟩ hne hd hs
  obtain ⟨hcontrol, hfalls, hreads⟩ := hrun [100, 120]
  have hseen : (build ⟨1, 2, 0⟩ forDo).result.map (fun tree =>
      (tree.evaluate [100, 120], (runBlock [100, 120] tree.root.program).reads)) = .ok (.rejected, [0, 1]) := by
    rw [build, canonical_eq_insertionSort]
    decide +kernel
  have hprogram : tree.root.program = program :=
    Option.some.inj ((program?_render (Vocabulary.proper_prefixed hs) (build_legible h) 0).symm.trans hp)
  rw [show (build ⟨1, 2, 0⟩ forDo).result = .ok tree from h] at hseen
  obtain ⟨hrejected, hcolumns⟩ := Prod.mk.inj (Except.ok.inj hseen)
  exact ⟨hne, hd, hs, tree, program, h, hp, hcontrol, hfalls, hreads, hrejected, hprogram ▸ hcolumns⟩

end KeywordTree
