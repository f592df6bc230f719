import BatchCompiler.Files.Host
import BatchCompiler.Files.Path

/-!
# File trees

Directories and files held as a value, with the same rules of access as a file system: a path is
walked name by name, and all names but the last have to be directories.
-/

namespace BatchCompiler.Files

open Text

inductive Item where
  | directory
  | file (content : Bytes)
  /-- A file that can be run. -/
  | program
deriving DecidableEq, Repr

/-- Items by their names from the root, and the names of the working directory. -/
structure Tree where
  items : List (List String × Item) := []
  here : List String := []

namespace Tree

def item? (t : Tree) (p : List String) : Option Item :=
  if p.isEmpty then some .directory
  else (t.items.find? fun x => x.1 == p).map Prod.snd

def put (t : Tree) (p : List String) (i : Item) : Tree :=
  if (t.item? p).isSome then
    { t with items := t.items.map fun x => if x.1 == p then (p, i) else x }
  else { t with items := t.items ++ [(p, i)] }

def erase (t : Tree) (p : List String) : Tree :=
  { t with items := t.items.filter fun x => x.1 != p }

/-- Walks names from a directory. All but the last have to be directories that exist. -/
def walk (t : Tree) (at_ : List String) : List String → Except Reason (List String)
  | [] => .ok at_
  | c :: rest =>
    if c = "" || c = "." then t.walk at_ rest
    else if c = ".." then t.walk at_.dropLast rest
    else if rest.isEmpty then .ok (at_ ++ [c])
    else match t.item? (at_ ++ [c]) with
      | some .directory => t.walk (at_ ++ [c]) rest
      | some _ => .error .notDirectory
      | none => .error .notFound

def locate (t : Tree) (p : String) : Except Reason (List String) :=
  if p = "" then .error .notFound
  else t.walk (if isAbsolute p then [] else t.here) (splitAt '/' p)

def programText : Bytes := [0x7F, 0x45, 0x4C, 0x46]

def read (t : Tree) (p : String) : Except FileError Bytes :=
  match t.locate p with
  | .error r => .error { action := "open", path := p, reason := r }
  | .ok names => match t.item? names with
    | some (.file content) => .ok content
    | some .program => .ok programText
    | some .directory => .error { action := "read", path := p, reason := .isDirectory }
    | none => .error { action := "open", path := p, reason := .notFound }

def write (t : Tree) (p : String) (content : Bytes) : Except FileError Tree :=
  let trimmed := dropTrailingSlashes p
  match t.locate (if trimmed = "" then p else trimmed) with
  | .error r => .error { action := "open", path := p, reason := r }
  | .ok names =>
    if trimmed ≠ p then .error { action := "open", path := p, reason := .isDirectory }
    else match t.item? names with
      | some .directory => .error { action := "open", path := p, reason := .isDirectory }
      | _ => .ok (t.put names (.file content))

def kind? (t : Tree) (p : String) : Option Kind :=
  match t.locate p with
  | .error _ => none
  | .ok names => (t.item? names).map fun
    | .directory => .directory
    | _ => .regular

def names (t : Tree) (p : String) : List String :=
  match t.locate p with
  | .error _ => []
  | .ok dir => t.items.filterMap fun x =>
    if x.1.dropLast == dir && !x.1.isEmpty then x.1.getLast? else none

def remove (t : Tree) (p : String) : Tree :=
  match t.locate p with
  | .error _ => t
  | .ok names => t.erase names

def makeFrom (t : Tree) (at_ : List String) : List String → Except Reason Tree
  | [] => .ok t
  | c :: rest =>
    if c = "" || c = "." then t.makeFrom at_ rest
    else if c = ".." then t.makeFrom at_.dropLast rest
    else match t.item? (at_ ++ [c]) with
      | some .directory => t.makeFrom (at_ ++ [c]) rest
      | some _ => .error .notDirectory
      | none => (t.put (at_ ++ [c]) .directory).makeFrom (at_ ++ [c]) rest

def makeDirectories (t : Tree) (p : String) : Except FileError Tree :=
  match t.makeFrom (if isAbsolute p then [] else t.here) (splitAt '/' p) with
  | .ok t => .ok t
  | .error r => .error { action := "mkdir", path := p, reason := r }

def empty (here : String) : Tree :=
  let names := reduceNames true [] (splitAt '/' here)
  match ({} : Tree).makeFrom [] names with
  | .ok t => { t with here := names }
  | .error _ => { here := names }

def add (t : Tree) (p : String) (i : Item) : Tree :=
  let names := t.here ++ reduceNames true [] (splitAt '/' p)
  match t.makeFrom [] names.dropLast with
  | .ok t => t.put names i
  | .error _ => t

def files (t : Tree) : List (String × Bytes) :=
  t.items.filterMap fun x => match x with
    | (p, .file content) =>
      if t.here.isPrefixOf p then some (joinWith "/" (p.drop t.here.length), content) else none
    | _ => none

end Tree

end BatchCompiler.Files
