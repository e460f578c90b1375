import KeywordTree.Generator
import KeywordTree.Proofs.Growth

/-! The canonical order of a corpus: sorted by index, and by text among equal indices.
Every arrangement of a corpus has the same one, so the order in which words are given
has no influence on a tree, on an error or on a generated text. -/
namespace KeywordTree

namespace Word

private theorem ofUInt8_lt {x y : UInt8} (h : x < y) : Char.ofUInt8 x < Char.ofUInt8 y := by
  apply UInt32.lt_iff_toNat_lt.mpr
  exact UInt8.lt_iff_toNat_lt.mp h

theorem text_le_text {a b : Word} (h : a.letters ≤ b.letters) : a.text ≤ b.text := by
  have ha : a.text.toList = a.letters.map Char.ofUInt8 := String.toList_ofList
  have hb : b.text.toList = b.letters.map Char.ofUInt8 := String.toList_ofList
  have hmap := List.map_le (fun _ _ => ofUInt8_lt) h
  rw [← ha, ← hb] at hmap
  exact hmap

end Word

theorem canonical_sorted (words : List Word) :
    (canonical words).Pairwise fun v w => v.index < w.index ∨ v.index = w.index ∧ v.text ≤ w.text := by
  refine (canonical_pairwise words).imp fun {v w} h => ?_
  rcases Word.precedes_iff.mp h with hlt | ⟨heq, hle⟩
  · exact .inl hlt
  · exact .inr ⟨heq, Word.text_le_text hle⟩

theorem canonical_eq_of_perm {a b : List Word} (h : a.Perm b) : canonical a = canonical b :=
  eq_canonical_of_pairwise ((canonical_perm a).trans h) (canonical_pairwise a)

/-- Picking the words with a key and putting words in order can be exchanged. -/
theorem groupOf_canonical (key : Word → Nat) (words : List Word) (k : Nat) :
    groupOf key (canonical words) k = canonical (groupOf key words k) :=
  eq_canonical_of_pairwise ((canonical_perm words).filter _) ((canonical_pairwise words).filter _)

/-- The whole construction, its log included, starts from the canonical order. -/
theorem build_eq_of_perm (config : Config) {a b : List Word} (h : a.Perm b) : build config a = build config b := by
  have hempty : a.isEmpty = b.isEmpty := by
    rw [Bool.eq_iff_iff, List.isEmpty_iff, List.isEmpty_iff]
    exact ⟨fun ha => (ha ▸ h).nil_eq.symm, fun hb => (hb ▸ h).eq_nil⟩
  rw [build, build, hempty, canonical_eq_of_perm h]

theorem deliver_take_all {bytes : Bytes} {count : Nat} (h : bytes.length ≤ count) (responses : List Response) :
    deliver (.take count :: responses) bytes = ⟨bytes, .complete⟩ := by
  match bytes, count with
  | [], _ => rw [deliver]
  | _ :: _, 0 => simp at h
  | byte :: rest, n + 1 =>
    have hdrop : (byte :: rest).drop (n + 1) = [] := List.drop_eq_nil_of_le h
    simp only [deliver, hdrop, List.take_of_length_le h, List.append_nil]

/-- The order in which a corpus is given is irrelevant. Every arrangement of it, with or
without repeated words, ends in the same tree or the same error; the words of the tree are
the corpus by index and then by text; every sink is treated alike, and one that takes all
it is offered receives the text of that one tree. -/
theorem generate_eq_of_perm (generator : Generator) {a b : List Word} (h : a.Perm b) :
    (generator.build a).result = (generator.build b).result ∧
    (∀ responses, generator.generate a responses = generator.generate b responses) ∧
    ∀ tree, (generator.build a).result = .ok tree →
      (tree.words.Perm a ∧
        tree.words.Pairwise fun v w => v.index < w.index ∨ v.index = w.index ∧ v.text ≤ w.text) ∧
      ∀ count, (Text.encode (generator.render tree)).length ≤ count → ∀ responses,
        (generator.generate a (.take count :: responses)).taken = Text.encode (generator.render tree) ∧
        (generator.generate a (.take count :: responses)).result? = some (.ok tree) := by
  have hbuild : generator.build a = generator.build b := build_eq_of_perm generator.config h
  refine ⟨by rw [hbuild], fun responses => by rw [Generator.generate, Generator.generate, hbuild], ?_⟩
  intro tree ht
  refine ⟨?_, fun count hc responses => ?_⟩
  · obtain ⟨_, hwords, _⟩ := build_inv ht
    rw [hwords]
    exact ⟨canonical_perm a, canonical_sorted a⟩
  · rw [Generator.generate, ht]
    simp [deliver_take_all hc]

/-- The words `to`, `by` and `at`; two of them have one index. -/
def toByAt : List Word :=
  [⟨3, [116, 111], by decide, by decide⟩, ⟨5, [98, 121], by decide, by decide⟩,
    ⟨3, [97, 116], by decide, by decide⟩]

theorem generate_eq_of_perm_toByAt : toByAt.Perm toByAt.reverse ∧
    ∃ tree, (({} : Generator).build toByAt.reverse).result = .ok tree ∧
      tree.words.map Word.text = ["at", "to", "by"] ∧
      (({} : Generator).generate toByAt.reverse [.take 1000]).taken =
        Text.encode (({} : Generator).render tree) := by
  have h : toByAt.Perm toByAt.reverse := (List.reverse_perm _).symm
  obtain ⟨hbuild, hgenerate, htree⟩ := generate_eq_of_perm {} h
  have hsize : ((({} : Generator).build toByAt).result.map fun tree =>
      decide ((Text.encode (({} : Generator).render tree)).length ≤ 1000)) = .ok true := by
    rw [Generator.build, build, canonical_eq_insertionSort]
    decide +kernel
  cases hr : (({} : Generator).build toByAt).result with
  | error error =>
    rw [hr] at hsize
    cases hsize
  | ok tree =>
    rw [hr] at hsize
    refine ⟨h, tree, hbuild ▸ hr, ?_, ?_⟩
    · rw [(build_inv hr).2.1, canonical_eq_insertionSort]
      decide +kernel
    · rw [← hgenerate]
      exact ((htree tree hr).2 1000 (of_decide_eq_true (Except.ok.inj hsize)) []).1

end KeywordTree
