/-! Texts as bytes. -/
namespace KeywordTree

abbrev Bytes := List UInt8

def Text.encode (text : String) : Bytes := text.toUTF8.data.toList

/-- The text that bytes encode, if they are valid UTF-8. -/
def Text.decode? (bytes : Bytes) : Option String := String.fromUTF8? ⟨bytes.toArray⟩

end KeywordTree
