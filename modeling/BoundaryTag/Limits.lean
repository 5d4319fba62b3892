/-!
# Limits of words

Numbers are natural throughout; these are the places where words of 64 bits
end.
-/

namespace BoundaryTag.Word

/-- The number of 64-bit words. -/
def limit : Nat := 0x10000000000000000

/-- The largest word. -/
def top : Nat := 0xFFFFFFFFFFFFFFFF

/-- The number of words that are not negative when read as signed numbers. -/
def signedLimit : Nat := 0x8000000000000000

end BoundaryTag.Word
