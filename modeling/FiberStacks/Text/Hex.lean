/-!
# Hexadecimal text

Addresses and raw words are written with lower-case digits behind `0x`, without padding.
-/

namespace FiberStacks.Text

def hex (n : Nat) : String :=
  "0x" ++ String.ofList (Nat.toDigits 16 n)

end FiberStacks.Text
