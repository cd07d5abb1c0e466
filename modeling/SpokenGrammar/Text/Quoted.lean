import SpokenGrammar.Text.Shown

namespace SpokenGrammar.Text

def codePoint (c : Char) : List Char :=
  ['\\', 'u', '{'] ++ Nat.toDigits 16 c.toNat ++ ['}']

def escape (quote c : Char) : List Char :=
  if c = '\x00' then ['\\', '0']
  else if c = '\t' then ['\\', 't']
  else if c = '\r' then ['\\', 'r']
  else if c = '\n' then ['\\', 'n']
  else if c = quote ∨ c = '\\' then ['\\', c]
  else if isShown c then [c]
  else codePoint c

def quoted (quote : Char) (s : List Char) : List Char :=
  quote :: s.flatMap (escape quote) ++ [quote]

def quotedText (s : String) : String :=
  String.ofList (quoted '"' s.toList)

def quotedChar (c : Char) : String :=
  String.ofList (quoted '\'' [c])

end SpokenGrammar.Text
