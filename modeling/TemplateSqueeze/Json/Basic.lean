import TemplateSqueeze.Text.Basic

namespace TemplateSqueeze.Json

/-- A whole number keeps its value; any other is the double it rounds to. -/
inductive Number where
  | whole (value : Int)
  | double (value : Float)

inductive Value where
  | null
  | bool (value : Bool)
  | number (value : Number)
  | string (value : Text)
  | array (items : List Value)
  | object (members : List (Text × Value))
  deriving Inhabited

def hexDigit (n : Nat) : Char := "0123456789abcdef".toList.getD n '0'

def escape (c : Char) : Text :=
  if c = '"' then ['\\', '"']
  else if c = '\\' then ['\\', '\\']
  else if c = '\x08' then ['\\', 'b']
  else if c = '\x0c' then ['\\', 'f']
  else if c = '\n' then ['\\', 'n']
  else if c = '\r' then ['\\', 'r']
  else if c = '\t' then ['\\', 't']
  else if c.toNat < 32 then
    ['\\', 'u', '0', '0', hexDigit (c.toNat / 16), hexDigit (c.toNat % 16)]
  else [c]

def quoted (t : Text) : Text := '"' :: t.flatMap escape ++ ['"']

def bracketed (items : List Text) : Text := '[' :: (List.intersperse [','] items).flatten ++ [']']

def member (key : String) (value : Text) : Text := quoted key.toList ++ ':' :: value

def braced (members : List Text) : Text :=
  '\x7b' :: (List.intersperse [','] members).flatten ++ ['\x7d']

end TemplateSqueeze.Json
