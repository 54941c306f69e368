import Pager.Address

namespace Pager

def describeBits (title : String) (names : List (Nat × String)) (bits : Nat) : String :=
  let named := (names.filter (fun p => bits.testBit p.1)).map Prod.snd
  let rest := names.foldl (fun r p => if bits.testBit p.1 then r - 1 <<< p.1 else r) bits
  let parts := if rest = 0 then named else named ++ [hex rest]
  title ++ "(" ++ (if parts.isEmpty then "0x0" else " | ".intercalate parts) ++ ")"

end Pager
