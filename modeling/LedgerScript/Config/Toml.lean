import LedgerScript.Config.DateTime
import LedgerScript.Text.Hex

/-!
# Configuration text

The part of TOML that a configuration uses: tables, dotted keys, truth values, strings of all four
kinds, dates and times, lists of strings, and inline tables of strings. A text with any other
value in it is not a configuration.
-/

set_option autoImplicit false

namespace LedgerScript.Toml

open Text (Reader)

inductive Value where
  | text (s : String)
  | truth (b : Bool)
  | dateTime (d : DateTime)
  | texts (items : List String)
  | table (entries : List (List String × String))

inductive Statement where
  | header (path : List String)
  | assign (path : List String) (value : Value)

def isSpace (c : Char) : Bool := c == ' ' || c == '\t'

def isPrintable (c : Char) : Bool := c == '\t' || (0x20 ≤ c.toNat && c.toNat != 0x7F)

def isBareKeyChar (c : Char) : Bool := c.isAlphanum || c == '_' || c == '-'

def skipSpaces (cs : List Char) : List Char := cs.dropWhile isSpace

def afterNewline? : List Char → Option (List Char)
  | '\n' :: rest => some rest
  | '\r' :: '\n' :: rest => some rest
  | _ => none

def scalar? (count : Nat) : Reader Char := fun cs => do
  let (n, rest) ← Text.takeHex? count cs
  if n.isValidChar then some (Char.ofNat n, rest) else none

def escape? : Reader Char
  | 'b' :: rest => some ('\x08', rest)
  | 't' :: rest => some ('\t', rest)
  | 'n' :: rest => some ('\n', rest)
  | 'f' :: rest => some ('\x0c', rest)
  | 'r' :: rest => some ('\r', rest)
  | '"' :: rest => some ('"', rest)
  | '\\' :: rest => some ('\\', rest)
  | 'u' :: rest => scalar? 4 rest
  | 'U' :: rest => scalar? 8 rest
  | _ => none

/-- The rest of a string on one line after its opening quote. Each step takes at least one
character, so the length of the text is enough of `fuel`. -/
def basicRest (fuel : Nat) (cs : List Char) : Option (List Char × List Char) :=
  match fuel, cs with
  | 0, _ | _, [] => none
  | _ + 1, '"' :: rest => some ([], rest)
  | fuel + 1, '\\' :: rest => do
    let (c, rest) ← escape? rest
    let (body, rest) ← basicRest fuel rest
    return (c :: body, rest)
  | fuel + 1, c :: rest =>
    if isPrintable c then (basicRest fuel rest).map (fun (body, rest) => (c :: body, rest)) else none

def basic : Reader String := fun cs =>
  (basicRest cs.length cs).map (fun (body, rest) => (String.ofList body, rest))

def literal : Reader String := fun cs =>
  match cs.dropWhile (fun c => c != '\'' && isPrintable c) with
  | '\'' :: rest => some (String.ofList (cs.takeWhile (fun c => c != '\'' && isPrintable c)), rest)
  | _ => none

/-- The end of a string of several lines after three quotes: up to two more belong to it. -/
def closing (quote : Char) : List Char → List Char × List Char
  | a :: b :: rest =>
    if a = quote ∧ b = quote then ([quote, quote], rest)
    else if a = quote then ([quote], b :: rest)
    else ([], a :: b :: rest)
  | [a] => if a = quote then ([quote], []) else ([], [a])
  | [] => ([], [])

def startsWithThree (quote : Char) (cs : List Char) : Bool := [quote, quote, quote].isPrefixOf cs

def skipBlankLines : Nat → List Char → List Char
  | 0, cs => cs
  | fuel + 1, cs =>
    let rest := skipSpaces cs
    match afterNewline? rest with
    | some rest => skipBlankLines fuel rest
    | none => rest

def joined? (cs : List Char) : Option (List Char) :=
  (afterNewline? (skipSpaces cs)).map (skipBlankLines cs.length)

/-- The rest of a string of several lines; escapes count between double quotes only. -/
def longRest (quote : Char) (fuel : Nat) (cs : List Char) : Option (List Char × List Char) :=
  match fuel, cs with
  | 0, _ | _, [] => none
  | fuel + 1, c :: rest =>
    let more (front rest : List Char) : Option (List Char × List Char) :=
      (longRest quote fuel rest).map (fun (body, rest) => (front ++ body, rest))
    if startsWithThree quote cs then some (closing quote (cs.drop 3))
    else if c == '\\' && quote == '"' then
      match joined? rest with
      | some rest => more [] rest
      | none => (escape? rest).bind (fun (x, rest) => more [x] rest)
    else
      match afterNewline? cs with
      | some rest => more ['\n'] rest
      | none => if isPrintable c then more [c] rest else none

def long (quote : Char) : Reader String := fun cs =>
  let cs := (afterNewline? cs).getD cs
  (longRest quote (cs.length + 1) cs).map (fun (body, rest) => (String.ofList body, rest))

def string : Reader String
  | '"' :: '"' :: '"' :: rest => long '"' rest
  | '"' :: rest => basic rest
  | '\'' :: '\'' :: '\'' :: rest => long '\'' rest
  | '\'' :: rest => literal rest
  | _ => none

def key : Reader String
  | '"' :: rest => basic rest
  | '\'' :: rest => literal rest
  | cs =>
    let word := cs.takeWhile isBareKeyChar
    if word.isEmpty then none else some (String.ofList word, cs.dropWhile isBareKeyChar)

def pathWithin : Nat → Reader (List String)
  | 0, _ => none
  | fuel + 1, cs => do
    let (name, rest) ← key cs
    match skipSpaces rest with
    | '.' :: more =>
      let (names, rest) ← pathWithin fuel (skipSpaces more)
      return (name :: names, rest)
    | rest => return ([name], rest)

def path : Reader (List String) := fun cs => pathWithin (cs.length + 1) cs

def afterComment (cs : List Char) : List Char :=
  match cs with
  | '#' :: rest => rest.dropWhile isPrintable
  | _ => cs

def skipGap : Nat → List Char → List Char
  | 0, cs => cs
  | fuel + 1, cs =>
    let rest := afterComment (skipSpaces cs)
    match afterNewline? rest with
    | some rest => skipGap fuel rest
    | none => rest

def gap (cs : List Char) : List Char := skipGap (cs.length + 1) cs

def itemsWithin : Nat → Reader (List String)
  | 0, _ => none
  | fuel + 1, cs =>
    match gap cs with
    | ']' :: rest => some ([], rest)
    | cs => do
      let (item, rest) ← string cs
      match gap rest with
      | ']' :: rest => return ([item], rest)
      | ',' :: rest =>
        let (items, rest) ← itemsWithin fuel rest
        return (item :: items, rest)
      | _ => none

def pair : Reader (List String × String) := fun cs => do
  let (names, rest) ← path cs
  match rest with
  | '=' :: rest =>
    let (value, rest) ← string (skipSpaces rest)
    return ((names, value), rest)
  | _ => none

/-- The entries of an inline table, of which there is one at least. -/
def entriesWithin : Nat → Reader (List (List String × String))
  | 0, _ => none
  | fuel + 1, cs => do
    let (entry, rest) ← pair (skipSpaces cs)
    match skipSpaces rest with
    | '}' :: rest => return ([entry], rest)
    | ',' :: rest =>
      let (entries, rest) ← entriesWithin fuel rest
      return (entry :: entries, rest)
    | _ => none

def inlineTable : Reader (List (List String × String)) := fun cs =>
  match skipSpaces cs with
  | '}' :: rest => some ([], rest)
  | _ => entriesWithin (cs.length + 1) cs

def value : Reader Value
  | 't' :: 'r' :: 'u' :: 'e' :: rest => some (.truth true, rest)
  | 'f' :: 'a' :: 'l' :: 's' :: 'e' :: rest => some (.truth false, rest)
  | '[' :: rest => (itemsWithin (rest.length + 1) rest).map (fun (xs, rest) => (.texts xs, rest))
  | '{' :: rest => (inlineTable rest).map (fun (es, rest) => (.table es, rest))
  | cs =>
    ((string cs).map (fun (s, rest) => (.text s, rest))).or
      ((DateTime.read cs).map (fun (d, rest) => (.dateTime d, rest)))

def header : Reader Statement := fun cs => do
  let (names, rest) ← path (skipSpaces cs)
  match rest with
  | ']' :: rest => return (.header names, rest)
  | _ => none

def assignment : Reader Statement := fun cs => do
  let (names, rest) ← path cs
  match rest with
  | '=' :: rest =>
    let (v, rest) ← value (skipSpaces rest)
    return (.assign names v, rest)
  | _ => none

def statement : Reader Statement
  | '[' :: rest => header rest
  | cs => assignment cs

/-- What follows the line that the text begins within, if nothing but a comment is left of it. -/
def afterLine? (cs : List Char) : Option (List Char) :=
  match afterComment (skipSpaces cs) with
  | [] => some []
  | rest => afterNewline? rest

def statementsWithin : Nat → List Char → Option (List Statement)
  | 0, _ => none
  | fuel + 1, cs =>
    match gap cs with
    | [] => some []
    | cs => do
      let (s, rest) ← statement cs
      let rest ← afterLine? rest
      return s :: (← statementsWithin fuel rest)

def withoutMark : List Char → List Char
  | '\ufeff' :: rest => rest
  | cs => cs

def statements? (text : String) : Option (List Statement) :=
  let cs := withoutMark text.toList
  statementsWithin (cs.length + 1) cs

end LedgerScript.Toml
