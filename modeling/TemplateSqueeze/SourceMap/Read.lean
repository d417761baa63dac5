import TemplateSqueeze.SourceMap.Mappings
import TemplateSqueeze.Json.Reader

namespace TemplateSqueeze.SourceMap

/-- A text that begins with one of these hides the map behind its first line. -/
def isJunk (c : Char) : Bool := c == ')' || c == ']' || c == '\x7d' || c == '\''

/-- What is left of a hidden map from the first line feed on. A carriage return ends a header only
together with a line feed. -/
def afterHeader : Text → Except MapError Text
  | [] => .ok []
  | '\n' :: t => .ok ('\n' :: t)
  | ['\r'] => .ok []
  | '\r' :: c :: t => if c = '\n' then .ok (c :: t) else .error .brokenHeader
  | _ :: t => afterHeader t

def withoutHeader (t : Text) : Except MapError Text :=
  if t.head?.any isJunk then afterHeader t else .ok t

open Json (Value)

structure Fields where
  sources : List (Option Text) := []
  sourceRoot : Text := []
  names : List Value := []
  ranges : Text := []
  mappings : Text := []
  isIndex : Bool := false
  isVendor : Bool := false

namespace Fields

def field? (members : List (Text × Value)) (key : String) : Option Value :=
  match members.find? (·.1 = key.toList) with
  | some (_, .null) | none => none
  | some (_, v) => some v

def word? : Value → Option Nat
  | .number (.whole n) => if 0 ≤ n ∧ n < wordSize then some n.toNat else none
  | _ => none

def text? : Value → Option Text
  | .string t => some t
  | _ => none

def list? : Value → Option (List Value)
  | .array vs => some vs
  | _ => none

def members? : Value → Option (List (Text × Value))
  | .object ms => some ms
  | _ => none

def orNull? {α : Type} (read : Value → Option α) : Value → Option (Option α)
  | .null => some none
  | v => (read v).map some

def listOf? {α : Type} (read : Value → Option α) (v : Value) : Option (List α) :=
  (list? v).bind (·.mapM read)

def optional {α : Type} (members : List (Text × Value)) (key : String) (read : Value → Option α) :
    Option (Option α) :=
  match field? members key with
  | none => some none
  | some v => (read v).map some

def required {α : Type} (members : List (Text × Value)) (key : String) (read : Value → Option α) :
    Option α :=
  match members.find? (·.1 = key.toList) with
  | none => none
  | some (_, v) => read v

def once (members : List (Text × Value)) (keys : List String) : Bool :=
  keys.all fun key ↦ (members.filter (·.1 = key.toList)).length ≤ 1

def isHex (t : Text) : Bool := t.all fun c ↦ (Json.Reader.hexValue? c).isSome

def isHexWord (t : Text) : Bool :=
  let digits := if t.head? = some '+' then t.tail else t
  digits ≠ [] ∧ isHex digits ∧ (digits.dropWhile (· == '0')).length ≤ 8

/-- A build's identity: 32 hexadecimal digits, all together or in the five usual groups, and maybe
an age behind them, which follows a hyphen exactly if the groups are set apart by hyphens. -/
def identity? : Value → Option Unit
  | .string t =>
    let grouped := t[8]? = some '-'
    let width := if grouped then 36 else 32
    let digits := t.take width
    let age := t.drop width
    let wellFormed :=
      if grouped then (digits.splitOn '-').map List.length = [8, 4, 4, 4, 12] ∧
        isHex (digits.filter (· ≠ '-'))
      else digits.length = 32 ∧ isHex digits
    let aged := age = [] ∨ (if grouped then age.head? = some '-' ∧ isHexWord age.tail
      else age.head? ≠ some '-' ∧ isHexWord age)
    if wellFormed ∧ aged then some () else none
  | _ => none

def scope? (v : Value) : Option Unit := do
  let ms ← members? v
  if once ms ["names", "mappings"] then
    discard (required ms "names" (listOf? text?))
    discard (required ms "mappings" text?)
  else failure

def offset? (v : Value) : Option Unit := do
  let ms ← members? v
  if once ms ["line", "column"] then
    discard (required ms "line" word?)
    discard (required ms "column" word?)
  else failure

def knownKeys : List String :=
  ["version", "file", "sources", "sourceRoot", "sourcesContent", "sections", "names",
    "rangeMappings", "mappings", "ignoreList", "x_facebook_offsets", "x_metro_module_paths",
    "x_facebook_sources", "debugId", "debug_id"]

/-- The fields of a map, if every known one has its form; `depth` bounds maps inside sections. -/
def ofValue? : Nat → Value → Option Fields
  | 0, _ => none
  | depth + 1, v => do
    let ms ← members? v
    if !once ms knownKeys then failure
    discard (optional ms "version" word?)
    let sources ← optional ms "sources" (listOf? (orNull? text?))
    let sourceRoot ← optional ms "sourceRoot" text?
    discard (optional ms "sourcesContent" (listOf? (orNull? text?)))
    let sections ← optional ms "sections" (listOf? fun s ↦ do
      let parts ← members? s
      if !once parts ["offset", "url", "map"] then failure
      discard (required parts "offset" offset?)
      discard (optional parts "url" text?)
      discard (optional parts "map" (ofValue? depth)))
    let names ← optional ms "names" list?
    let ranges ← optional ms "rangeMappings" text?
    let mappings ← optional ms "mappings" text?
    discard (optional ms "ignoreList" (listOf? word?))
    discard (optional ms "x_facebook_offsets" (listOf? (orNull? word?)))
    discard (optional ms "x_metro_module_paths" (listOf? text?))
    let vendor ← optional ms "x_facebook_sources" (listOf? (orNull? (listOf? scope?)))
    discard (optional ms "debugId" identity?)
    discard (optional ms "debug_id" identity?)
    return {
      sources := sources.getD []
      sourceRoot := sourceRoot.getD []
      names := names.getD []
      ranges := ranges.getD []
      mappings := mappings.getD []
      isIndex := sections.isSome
      isVendor := vendor.isSome
    }

def rooted (root source : Text) : Text :=
  if root = [] ∨ source.head? = some '/' ∨ "http:".toList.isPrefixOf source ∨
      "https:".toList.isPrefixOf source then source
  else (if root.getLast? = some '/' then root.dropLast else root) ++ '/' :: source

def nameOf : Value → Text
  | .string t => t
  | .number n => n.text
  | _ => []

def tables (f : Fields) : Tables where
  sources := (f.sources.map fun s ↦ rooted f.sourceRoot (s.getD [])).toArray
  names := (f.names.map nameOf).toArray

end Fields

def ordered (tokens : List Token) : List Token :=
  tokens.mergeSort fun a b ↦ !b.position.precedes a.position

def read (t : Text) : Except MapError (List Token) := do
  let some v := Json.parse? (← withoutHeader t) | .error .badJson
  let some fields := Fields.ofValue? 128 v | .error .badJson
  if fields.isIndex ∨ fields.isVendor then .error .incompatible
  else return ordered (← fields.tables.tokens fields.mappings fields.ranges)

end TemplateSqueeze.SourceMap
