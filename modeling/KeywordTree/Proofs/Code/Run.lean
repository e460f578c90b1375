import KeywordTree.Proofs.Code.Statement

/-! Running a program on a candidate. A run tells the columns it has read and how often it
went on from the body of one label into the body of the next. -/
namespace KeywordTree.Code

inductive Control where
  | next
  | ended (verdict : Verdict)
  /-- A column past the end of the candidate was read. -/
  | fault
  deriving DecidableEq, Repr

structure Run where
  reads : List Nat
  falls : Nat
  control : Control
  deriving DecidableEq, Repr

namespace Run

def idle : Run := ⟨[], 0, .next⟩

/-- Enter the body of the next label. -/
def fall : Run := ⟨[], 1, .next⟩

def exit (verdict : Verdict) : Run := ⟨[], 0, .ended verdict⟩

/-- Go on with what follows, if the run is not over. -/
def andThen (first following : Run) : Run :=
  match first.control with
  | .next => ⟨first.reads ++ following.reads, first.falls + following.falls, following.control⟩
  | _ => first

end Run

def columnsRead : Subject → List Nat
  | .length => []
  | .column k => [k]

def onRead (candidate : Candidate) (subject : Subject) (body : Nat → Run) : Run :=
  match subject.read candidate with
  | none => ⟨columnsRead subject, 0, .fault⟩
  | some value => (Run.mk (columnsRead subject) 0 .next).andThen (body value)

/-- Test from left to right up to the first test that fails. -/
def runTests (candidate : Candidate) (body : Run) : List Test → Run
  | [] => body
  | test :: rest => onRead candidate test.subject fun value =>
    if value = test.value then runTests candidate body rest else .idle

mutual

def Stmt.run (candidate : Candidate) : Stmt → Run
  | .ifAll tests body => runTests candidate (runBlock candidate body) tests
  | .switch subject cases => onRead candidate subject fun value => runCases candidate value cases
  | .exit verdict => .exit verdict

def runBlock (candidate : Candidate) : List Stmt → Run
  | [] => .idle
  | stmt :: rest => (stmt.run candidate).andThen (runBlock candidate rest)

/-- Jump to the label of a value, or past all labels if there is none. -/
def runCases (candidate : Candidate) (value : Nat) : List (Nat × List Stmt) → Run
  | [] => .idle
  | (label, body) :: rest =>
    if label = value then (runBlock candidate body).andThen (runFalling candidate rest)
    else runCases candidate value rest

def runFalling (candidate : Candidate) : List (Nat × List Stmt) → Run
  | [] => .idle
  | (_, body) :: rest => .andThen .fall ((runBlock candidate body).andThen (runFalling candidate rest))

end

-- A body that does not end runs into the next one.
example : runBlock [97] [.switch .length [(1, []), (2, [.exit .rejected])]] = ⟨[], 1, .ended .rejected⟩ := by rfl

/-- A run that goes where the control says, enters no label from the body of another and
reads no column past the end. -/
structure Run.Leads (candidate : Candidate) (run : Run) (control : Control) : Prop where
  control_eq : run.control = control
  falls_eq : run.falls = 0
  reads_lt : ∀ k ∈ run.reads, k < candidate.length

namespace Run.Leads

variable {candidate : Candidate} {first following : Run} {verdict : Verdict} {control : Control}

theorem idle : Run.idle.Leads candidate .next := ⟨rfl, rfl, by simp [Run.idle]⟩

theorem exit (verdict : Verdict) : (Run.exit verdict).Leads candidate (.ended verdict) :=
  ⟨rfl, rfl, by simp [Run.exit]⟩

theorem stop (h : first.Leads candidate (.ended verdict)) (following : Run) :
    (first.andThen following).Leads candidate (.ended verdict) := by
  have he : first.andThen following = first := by rw [andThen, h.control_eq]
  rw [he]
  exact h

theorem andThen (h : first.Leads candidate .next) (hf : following.Leads candidate control) :
    (first.andThen following).Leads candidate control := by
  have he : first.andThen following = ⟨first.reads ++ following.reads, following.falls, following.control⟩ := by
    rw [Run.andThen, h.control_eq, h.falls_eq, Nat.zero_add]
  rw [he]
  refine ⟨hf.control_eq, hf.falls_eq, fun k hk => ?_⟩
  rcases List.mem_append.mp hk with hk | hk
  · exact h.reads_lt k hk
  · exact hf.reads_lt k hk

theorem onRead {subject : Subject} {value : Nat} {body : Nat → Run} (hr : subject.read candidate = some value)
    (hb : (body value).Leads candidate control) : (onRead candidate subject body).Leads candidate control := by
  rw [Code.onRead, hr]
  refine andThen ⟨rfl, rfl, fun k hk => ?_⟩ hb
  cases subject with
  | length => simp [columnsRead] at hk
  | column c =>
    obtain rfl : k = c := by simpa [columnsRead] using hk
    obtain ⟨byte, hbyte, _⟩ := Option.map_eq_some_iff.mp hr
    exact (List.getElem?_eq_some_iff.mp hbyte).1

/-- A condition all of whose subjects can be read leads into its body exactly if every
test holds. -/
theorem runTests {tests : List Test} {body : Run} (hb : body.Leads candidate control)
    (hr : ∀ test ∈ tests, (test.subject.read candidate).isSome) :
    (runTests candidate body tests).Leads candidate
      (if ∀ test ∈ tests, test.subject.read candidate = some test.value then control else .next) := by
  induction tests with
  | nil => simpa [Code.runTests] using hb
  | cons test rest ih =>
    obtain ⟨value, hv⟩ := Option.isSome_iff_exists.mp (hr test List.mem_cons_self)
    refine onRead hv ?_
    by_cases he : value = test.value
    · subst he
      simpa [hv] using ih fun t ht => hr t (List.mem_cons_of_mem test ht)
    · simpa [hv, he] using idle

end Run.Leads

end KeywordTree.Code
