namespace TemplateSqueeze

inductive Language where
  | js
  | ts
  | tsx
  deriving DecidableEq, Repr

namespace Language

def name : Language → String
  | js => "js"
  | ts => "ts"
  | tsx => "tsx"

def ofName? : String → Option Language
  | "js" => some js
  | "ts" => some ts
  | "tsx" => some tsx
  | _ => none

def ofExtension? : String → Option Language
  | "js" | "mjs" | "cjs" | "jsx" => some js
  | "ts" | "mts" | "cts" => some ts
  | "tsx" => some tsx
  | _ => none

end Language

end TemplateSqueeze
