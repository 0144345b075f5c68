import GeneCalculus.Text.Hex
import GeneCalculus.Text.Hidden

/-!
Quoted text: the form in which string constants are printed and in which messages show names.
-/

namespace GeneCalculus.Text.Quoted

/-- One character between the quotes. -/
def escape (c : Char) : List Char :=
  match c with
  | '"' => ['\\', '"']
  | '\\' => ['\\', '\\']
  | '\n' => ['\\', 'n']
  | '\t' => ['\\', 't']
  | '\r' => ['\\', 'r']
  | '\x00' => ['\\', '0']
  | c => if isHidden c then '\\' :: 'u' :: '\x7b' :: (Hex.ofNat c.toNat ++ ['\x7d']) else [c]

/-- The text between quotes, with what would end or blur it escaped. -/
def quote (s : String) : String :=
  String.ofList ('"' :: (s.toList.flatMap escape ++ ['"']))

end GeneCalculus.Text.Quoted
