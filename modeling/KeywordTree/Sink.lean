import KeywordTree.Text.Bytes

/-! Handing bytes to a sink that may take them in parts, be interrupted or refuse. A sink
is known by its responses, in the order in which it is asked. -/
namespace KeywordTree

inductive Response where
  /-- It takes so many of the offered bytes, or all of them if there are fewer. -/
  | take (count : Nat)
  /-- It takes nothing and may be asked again. -/
  | interrupted
  | refuse (reason : String)
  deriving DecidableEq, Repr

/-- How a delivery ends. One that is still waiting for a response has not ended. -/
inductive Ending where
  | complete
  | failed (reason : String)
  | waiting
  deriving DecidableEq, Repr

structure Delivery where
  taken : Bytes
  ending : Ending
  deriving DecidableEq, Repr

/-- Offer bytes until the sink has them all. An interruption is retried, and a sink that
takes none of the offered bytes has failed. -/
def deliver : List Response → Bytes → Delivery
  | _, [] => ⟨[], .complete⟩
  | [], _ :: _ => ⟨[], .waiting⟩
  | .interrupted :: responses, bytes => deliver responses bytes
  | .refuse reason :: _, _ :: _ => ⟨[], .failed reason⟩
  | .take 0 :: _, _ :: _ => ⟨[], .failed "failed to write whole buffer"⟩
  | .take count :: responses, bytes =>
    let rest := deliver responses (bytes.drop count)
    ⟨bytes.take count ++ rest.taken, rest.ending⟩

end KeywordTree
