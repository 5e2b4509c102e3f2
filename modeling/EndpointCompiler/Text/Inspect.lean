import EndpointCompiler.Text.Hidden

/-! Texts as they are shown for inspection: between quotes, with escapes for all that does not show
by itself. -/

namespace EndpointCompiler

def inspectChar (c : Char) : List Char :=
  if c = '"' ∨ c = '\\' then ['\\', c]
  else if c = '\n' then ['\\', 'n']
  else if c = '\r' then ['\\', 'r']
  else if c = '\t' then ['\\', 't']
  else if c = '\x00' then ['\\', '0']
  else if c.toNat < 0x20 ∨ c.toNat = 0x7F ∨ (0x7F < c.toNat ∧ isHidden c) then
    ['\\', 'u', '\x7b'] ++ Nat.toDigits 16 c.toNat ++ ['\x7d']
  else [c]

def inspectText (s : String) : String :=
  "\"" ++ String.ofList (s.toList.flatMap inspectChar) ++ "\""

end EndpointCompiler
