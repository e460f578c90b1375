import KeywordTree.Config
import KeywordTree.Error

/-! The log of a run and computations that keep one. The log survives a failure: what
was noted before an error stays noted. -/
namespace KeywordTree

inductive Level where
  | trace
  | debug
  | info
  deriving DecidableEq, Repr

def Level.name : Level → String
  | .trace => "TRACE"
  | .debug => "DEBUG"
  | .info => "INFO"

/-- One thing worth noting about a run. -/
inductive Event where
  | configured (config : Config)
  | lengthDispatch (lengths : Nat) (mode : Mode)
  | columnStats (column distinct span : Nat)
  | columnDispatch (column : Nat) (mode : Mode) (candidates untested : Nat)
  | tailElided (text : String) (unverified : Nat)
  | generated (words bytes guesses depth : Nat)
  deriving DecidableEq, Repr

namespace Event

def level : Event → Level
  | columnStats .. => .trace
  | generated .. => .info
  | _ => .debug

/-- The part of the program that speaks. -/
def target : Event → String
  | configured _ => "reserved_switch"
  | columnStats .. => "reserved_switch::generator::selector"
  | generated .. => "reserved_switch::generator"
  | _ => "reserved_switch::generator::builder"

private def field (name : String) (value : Nat) : String := " " ++ name ++ "=" ++ toString value

def message : Event → String
  | configured config =>
    "generator configured config=GeneratorConfig \x7b use_if_threshold: " ++
      toString config.ifThreshold ++ ", tail_test_threshold: " ++ toString config.tailThreshold ++
      ", base_indent: " ++ toString config.baseIndent ++ " \x7d"
  | lengthDispatch lengths mode => "length dispatch" ++ field "lengths" lengths ++ " mode=" ++ mode.name
  | columnStats column distinct span =>
    "column stats" ++ field "column" column ++ field "distinct" distinct ++ field "span" span
  | columnDispatch column mode candidates untested =>
    "column dispatch" ++ field "column" column ++ " mode=" ++ mode.name ++
      field "candidates" candidates ++ field "unprocessed" untested
  | tailElided text unverified =>
    "tail comparison elided word=\"" ++ text ++ "\"" ++ field "unverified" unverified
  | generated words bytes guesses depth =>
    "generated reserved word switch" ++ field "words" words ++ field "bytes" bytes ++
      field "guesses" guesses ++ field "depth" depth

/-- One line of the log, without its end. -/
def render (event : Event) : String := event.level.name ++ " " ++ event.target ++ ": " ++ event.message

end Event

/-- A computation that notes events and ends in a value or an error. -/
structure Traced (α : Type) where
  events : List Event
  result : Except BuildError α

namespace Traced

variable {α β : Type}

def succeed (value : α) : Traced α := ⟨[], .ok value⟩

def fail (error : BuildError) : Traced α := ⟨[], .error error⟩

def note (event : Event) : Traced Unit := ⟨[event], .ok ()⟩

def lift (result : Except BuildError α) : Traced α := ⟨[], result⟩

/-- Run one computation after another. After an error the second does not run. -/
def andThen (first : Traced α) (next : α → Traced β) : Traced β :=
  match first.result with
  | .error error => ⟨first.events, .error error⟩
  | .ok value => ⟨first.events ++ (next value).events, (next value).result⟩

instance : Monad Traced where
  pure := succeed
  bind := andThen

@[simp] theorem result_pure (value : α) : (pure value : Traced α).result = .ok value := rfl

@[simp] theorem result_fail (error : BuildError) : (fail error : Traced α).result = .error error := rfl

@[simp] theorem result_note (event : Event) : (note event).result = .ok () := rfl

@[simp] theorem result_lift (result : Except BuildError α) : (lift result).result = result := rfl

/-- The log has no influence on the outcome. -/
@[simp] theorem result_bind (first : Traced α) (next : α → Traced β) :
    (first >>= next).result = first.result >>= fun value => (next value).result := by
  change (andThen first next).result = _
  unfold andThen
  cases first.result <;> rfl

@[simp] theorem ok_bind (value : α) (next : α → Except BuildError β) :
    (Except.ok value >>= next) = next value := rfl

@[simp] theorem error_bind (error : BuildError) (next : α → Except BuildError β) :
    (Except.error error >>= next) = Except.error error := rfl

theorem bind_eq_ok {first : Except BuildError α} {next : α → Except BuildError β} {value : β} :
    (first >>= next) = .ok value ↔ ∃ a, first = .ok a ∧ next a = .ok value := by
  cases first with
  | error error => simp
  | ok a => simp

end Traced

end KeywordTree
