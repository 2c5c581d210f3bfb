/-!
# Quoted text

A text is written between double quotes, with a backslash in front of a quote and of a backslash,
and with `\n` and `\t` for a line feed and a tab. Reading undoes this; it also takes any other
escaped character for itself, keeps a backslash that ends the text, and drops the enclosing quotes
only when both are there.
-/

namespace Monolet.Quoted

/-- How one character of a text is written between quotes. -/
def escapeChar : Char → List Char
  | '"' => ['\\', '"']
  | '\\' => ['\\', '\\']
  | '\n' => ['\\', 'n']
  | '\t' => ['\\', 't']
  | c => [c]

/-- The written form of a text. -/
def encode (text : String) : String :=
  String.ofList ('"' :: (text.toList.flatMap escapeChar ++ ['"']))

/-- The character that an escaped letter stands for. -/
def unescapeChar : Char → Char
  | 'n' => '\n'
  | 't' => '\t'
  | c => c

/-- Resolve the escapes of a text without its quotes. -/
def resolve : List Char → List Char
  | [] => []
  | ['\\'] => ['\\']
  | '\\' :: c :: cs => unescapeChar c :: resolve cs
  | c :: cs => c :: resolve cs

/-- Drop the enclosing quotes if the text both starts and ends with one of its own. -/
def unwrap : List Char → List Char
  | '"' :: cs => if cs.getLast? = some '"' then cs.dropLast else '"' :: cs
  | cs => cs

/-- The text that a written form stands for. -/
def decode (written : String) : String :=
  String.ofList (resolve (unwrap written.toList))

end Monolet.Quoted
