import KeywordTree.Generator
import KeywordTree.Proofs.Grouping
import KeywordTree.Tree.Equality
import Mathlib.Algebra.GroupWithZero.Nat
import Mathlib.Data.List.Infix

/-! Delivering a text to a sink that takes it in parts, is interrupted or fails. Whatever
the sink answers, it holds a beginning of the text, and the whole of it exactly if the
delivery is complete. -/
namespace KeywordTree

/-- What a sink is left with after bytes were offered to it: a beginning of them, and all of
them exactly if the delivery is complete. It holds while the delivery is still waiting. -/
structure Delivery.Faithful (bytes : Bytes) (delivery : Delivery) : Prop where
  taken_begins : delivery.taken <+: bytes
  complete_iff : delivery.ending = .complete ↔ delivery.taken = bytes

namespace Delivery.Faithful

variable {bytes : Bytes} {rest : Delivery}

theorem stopped {ending : Ending} (hne : bytes ≠ []) (he : ending ≠ .complete) :
    Delivery.Faithful bytes ⟨[], ending⟩ where
  taken_begins := List.nil_prefix
  complete_iff := iff_of_false he fun h => hne h.symm

/-- After a part was taken, what is offered next starts where that part ends. -/
theorem take {count : Nat} (h : Delivery.Faithful (bytes.drop count) rest) :
    Delivery.Faithful bytes ⟨bytes.take count ++ rest.taken, rest.ending⟩ where
  taken_begins := by
    obtain ⟨left, hleft⟩ := h.taken_begins
    refine ⟨left, ?_⟩
    rw [List.append_assoc, hleft, List.take_append_drop]
  complete_iff := by
    rw [h.complete_iff]
    constructor
    · intro hrest
      rw [hrest, List.take_append_drop]
    · intro (hall : bytes.take count ++ rest.taken = bytes)
      exact List.append_cancel_left (hall.trans (List.take_append_drop count bytes).symm)

end Delivery.Faithful

theorem deliver_faithful (responses : List Response) (bytes : Bytes) : (deliver responses bytes).Faithful bytes := by
  fun_induction deliver responses bytes with
  | case1 responses => exact ⟨List.nil_prefix, iff_of_true rfl rfl⟩
  | case2 byte more => exact .stopped (List.cons_ne_nil _ _) Ending.noConfusion
  | case3 responses bytes _ ih => exact ih
  | case4 reason responses byte more => exact .stopped (List.cons_ne_nil _ _) Ending.noConfusion
  | case5 responses byte more => exact .stopped (List.cons_ne_nil _ _) Ending.noConfusion
  | case6 count responses bytes _ _ _ ih => exact ih.take

theorem deliver_nil (responses : List Response) : deliver responses [] = ⟨[], .complete⟩ := by
  rw [deliver]

theorem deliver_interrupted (responses : List Response) (bytes : Bytes) :
    deliver (.interrupted :: responses) bytes = deliver responses bytes := by
  cases bytes with
  | nil => rw [deliver_nil, deliver_nil]
  | cons byte more => rw [deliver]; exact List.cons_ne_nil _ _

theorem deliver_take {count : Nat} (hc : count ≠ 0) (responses : List Response) (bytes : Bytes) :
    deliver (.take count :: responses) bytes =
      ⟨bytes.take count ++ (deliver responses (bytes.drop count)).taken,
        (deliver responses (bytes.drop count)).ending⟩ := by
  cases bytes with
  | nil => simp [deliver_nil]
  | cons byte more =>
    rw [deliver]
    · exact List.cons_ne_nil _ _
    · exact fun _ _ _ => hc

/-- A response after which nothing more is offered, though not all was taken. -/
def Response.fails : Response → Bool
  | take count => count == 0
  | interrupted => false
  | refuse _ => true

theorem deliver_of_fails {response : Response} (hf : response.fails = true) (responses : List Response) {bytes : Bytes}
    (hne : bytes ≠ []) : ∃ reason, deliver (response :: responses) bytes = ⟨[], .failed reason⟩ := by
  obtain ⟨byte, more, rfl⟩ := List.exists_cons_of_ne_nil hne
  cases response with
  | take count =>
    obtain rfl : count = 0 := by simpa [Response.fails] using hf
    exact ⟨_, rfl⟩
  | interrupted => cases hf
  | refuse reason => exact ⟨reason, rfl⟩

def Response.count : Response → Nat
  | take count => count
  | _ => 0

/-- A delivery waits for as long as no response fails and the bytes are not all taken. -/
theorem deliver_waiting_iff (responses : List Response) (bytes : Bytes) :
    (deliver responses bytes).ending = .waiting ↔
      (∀ response ∈ responses, response.fails = false) ∧ (responses.map Response.count).sum < bytes.length := by
  induction responses generalizing bytes with
  | nil => cases bytes <;> simp [deliver]
  | cons response responses ih =>
    by_cases hf : response.fails = true
    · by_cases hne : bytes = []
      · simp [hne, deliver_nil]
      · obtain ⟨reason, he⟩ := deliver_of_fails hf responses hne
        simp [he, hf]
    · cases response with
      | take count =>
        have hc : count ≠ 0 := by simpa [Response.fails] using hf
        rw [deliver_take hc, ih, List.forall_mem_cons, List.map_cons, List.sum_cons, List.length_drop]
        simp only [Response.count, Bool.eq_false_iff.mpr hf, true_and]
        refine and_congr_right fun _ => ?_
        omega
      | interrupted =>
        rw [deliver_interrupted, ih]
        simp [Response.fails, Response.count]
      | refuse reason => exact absurd rfl hf

theorem deliver_append {responses : List Response} {bytes : Bytes}
    (h : (deliver responses bytes).ending ≠ .waiting) (more : List Response) :
    deliver (responses ++ more) bytes = deliver responses bytes := by
  induction responses generalizing bytes with
  | nil =>
    cases bytes with
    | nil => rw [deliver_nil, deliver_nil]
    | cons byte rest => exact absurd rfl h
  | cons response responses ih =>
    cases bytes with
    | nil => rw [deliver_nil, deliver_nil]
    | cons byte rest =>
      cases response with
      | take count =>
        by_cases hc : count = 0
        · subst hc
          rfl
        · rw [deliver_take hc] at h
          rw [List.cons_append, deliver_take hc, deliver_take hc, ih h]
      | interrupted =>
        rw [deliver_interrupted] at h
        rw [List.cons_append, deliver_interrupted, deliver_interrupted, ih h]
      | refuse reason => rfl

namespace Generator

variable (generator : Generator) {corpus : List Word}

theorem generate_of_error {error : BuildError} (hb : (generator.build corpus).result = .error error)
    (responses : List Response) :
    generator.generate corpus responses = ⟨(generator.build corpus).events, [], some (.error (.build error))⟩ := by
  simp only [generate, hb]

variable {tree : Tree}

theorem taken_generate (hb : (generator.build corpus).result = .ok tree) (responses : List Response) :
    (generator.generate corpus responses).taken = (deliver responses (Text.encode (generator.render tree))).taken := by
  simp only [generate, hb]
  split <;> rfl

/-- What is reported of a delivery: the tree, or that the sink failed, and nothing while it waits. -/
def reported? (tree : Tree) : Ending → Option (Except GenerateError Tree)
  | .complete => some (.ok tree)
  | .failed reason => some (.error (.sink reason))
  | .waiting => none

theorem reported?_eq_none_iff {ending : Ending} : reported? tree ending = none ↔ ending = .waiting := by
  cases ending <;> simp [reported?]

theorem reported?_inv {ending : Ending} {result : Except GenerateError Tree} (h : reported? tree ending = some result) :
    ending = .complete ∧ result = .ok tree ∨ ending ≠ .complete ∧ ∃ reason, result = .error (.sink reason) := by
  cases ending with
  | complete => exact .inl ⟨rfl, (Option.some.inj h).symm⟩
  | failed reason => exact .inr ⟨Ending.noConfusion, reason, (Option.some.inj h).symm⟩
  | waiting => cases h

theorem result?_generate (hb : (generator.build corpus).result = .ok tree) (responses : List Response) :
    (generator.generate corpus responses).result? =
      reported? tree (deliver responses (Text.encode (generator.render tree))).ending := by
  simp only [generate, hb]
  cases (deliver responses (Text.encode (generator.render tree))).ending <;> rfl

theorem generate_append (hb : (generator.build corpus).result = .ok tree) {responses : List Response}
    (h : (generator.generate corpus responses).result? ≠ none) (more : List Response) :
    generator.generate corpus (responses ++ more) = generator.generate corpus responses := by
  have hended : (deliver responses (Text.encode (generator.render tree))).ending ≠ .waiting := by
    intro he
    rw [generator.result?_generate hb, he] at h
    exact h rfl
  simp only [generate, hb, deliver_append hended]

end Generator

/-- Every sink is safe, in whatever parts it takes the text and wherever it fails. A
generation waits for its sink only while no response fails and the text is not all taken,
and what it has ended in no further response changes. Where there is no tree, the error is
that of the construction and the sink is not even asked: the end is the same for every
other sink, also for one that never responds. Where there is a tree, the sink holds a
beginning of its text; it holds all of it exactly if the tree is returned, and less exactly
if the sink is reported to have failed, and nothing else can be returned. -/
theorem generate_sink_safe (generator : Generator) (corpus : List Word) (responses : List Response) :
    ((generator.generate corpus responses).result? = none ↔ ∃ tree, (generator.build corpus).result = .ok tree ∧
      (∀ response ∈ responses, response.fails = false) ∧
      (responses.map Response.count).sum < (Text.encode (generator.render tree)).length) ∧
    ∀ result, (generator.generate corpus responses).result? = some result →
      (∀ more, generator.generate corpus (responses ++ more) = generator.generate corpus responses) ∧
      (∀ error, (generator.build corpus).result = .error error →
        result = .error (.build error) ∧ (generator.generate corpus responses).taken = [] ∧
        ∀ others, generator.generate corpus others = generator.generate corpus responses) ∧
      ∀ tree, (generator.build corpus).result = .ok tree →
        (generator.generate corpus responses).taken <+: Text.encode (generator.render tree) ∧
        (result = .ok tree ∨ ∃ reason, result = .error (.sink reason)) ∧
        (result = .ok tree ↔
          (generator.generate corpus responses).taken = Text.encode (generator.render tree)) ∧
        ((∃ reason, result = .error (.sink reason)) ↔
          (generator.generate corpus responses).taken <+: Text.encode (generator.render tree) ∧
          (generator.generate corpus responses).taken ≠ Text.encode (generator.render tree)) := by
  cases hb : (generator.build corpus).result with
  | error cause =>
    have hall := generator.generate_of_error hb
    refine ⟨by simp [hall], fun result hr => ⟨fun more => by rw [hall, hall], ?_, fun tree ht => by cases ht⟩⟩
    intro error he
    obtain rfl : cause = error := Except.error.inj he
    rw [hall] at hr
    exact ⟨(Option.some.inj hr).symm, by rw [hall], fun others => by rw [hall, hall]⟩
  | ok tree =>
    obtain ⟨hbegins, hcomplete⟩ := deliver_faithful responses (Text.encode (generator.render tree))
    refine ⟨?_, fun result hr => ⟨?_, fun error he => (by cases he), ?_⟩⟩
    · rw [generator.result?_generate hb, Generator.reported?_eq_none_iff, deliver_waiting_iff]
      simp
    · exact generator.generate_append hb (by simp [hr])
    · intro built ht
      obtain rfl : tree = built := Except.ok.inj ht
      rw [generator.result?_generate hb] at hr
      rw [generator.taken_generate hb]
      rcases Generator.reported?_inv hr with ⟨he, rfl⟩ | ⟨he, reason, rfl⟩
      · simp [hcomplete.mp he]
      · simp [mt hcomplete.mpr he, hbegins]

/-- The word `up`, whose text has 239 bytes. -/
def upWord : List Word := [⟨6, [117, 112], by decide, by decide⟩]

/-- A sink that is interrupted and then refuses the last byte. -/
def closingSink : List Response := [.take 7, .interrupted, .take 231, .refuse "closed"]

theorem generate_sink_safe_upWord :
    ∃ tree generation, ({} : Generator).generate upWord closingSink = generation ∧
      (({} : Generator).build upWord).result = .ok tree ∧
      generation.result? = some (.error (.sink "closed")) ∧ generation.taken.length = 238 ∧
      generation.taken <+: Text.encode (({} : Generator).render tree) ∧
      generation.taken ≠ Text.encode (({} : Generator).render tree) := by
  have hr : (({} : Generator).generate upWord closingSink).result? = some (.error (.sink "closed")) := by
    rw [Generator.generate, Generator.build, build, canonical_eq_insertionSort]
    decide +kernel
  have hlength : (({} : Generator).generate upWord closingSink).taken.length = 238 := by
    rw [Generator.generate, Generator.build, build, canonical_eq_insertionSort]
    decide +kernel
  obtain ⟨_, hended⟩ := generate_sink_safe {} upWord closingSink
  obtain ⟨_, herror, htree⟩ := hended _ hr
  cases hb : (({} : Generator).build upWord).result with
  | error error => cases (herror error hb).1
  | ok tree =>
    obtain ⟨_, _, _, hless⟩ := htree tree hb
    exact ⟨tree, _, rfl, rfl, hr, hlength, hless.mp ⟨"closed", rfl⟩⟩

end KeywordTree
