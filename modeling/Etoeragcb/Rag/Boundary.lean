import Etoeragcb.Rag.Context

/-!
# The boundaries of web passages

What a reader of a context sees of it, line by line.
-/

namespace Etoeragcb.Rag

open Lib Models

def lines (text : Text) : List Text := text.splitOn '\n'

def beginLine (i : Nat) : Text := "--- BEGIN UNTRUSTED WEB SOURCE ".toList ++ ('S' :: natStr i) ++ " ---".toList

def endLine (i : Nat) : Text := "--- END UNTRUSTED WEB SOURCE ".toList ++ ('S' :: natStr i) ++ " ---".toList

def RerankedEvidence.isWeb (x : RerankedEvidence) : Bool := x.candidate.sourceType = .web

def headerText (x : RerankedEvidence × Nat) : Text :=
  let candidate := x.1.candidate
  let metadata := [("type=" ++ (match candidate.sourceType with
      | .document => "document"
      | .web => "web")).toList, "title=".toList ++ candidate.title] ++
    (candidate.sourceFilename.map fun s => "file=".toList ++ s).toList ++
    (match candidate.pageStart, candidate.pageEnd with
      | some start, some stop => ["pages=".toList ++ natStr start ++ '-' :: natStr stop]
      | _, _ => []) ++
    (candidate.uri.map fun s => "url=".toList ++ s).toList
  '[' :: ('S' :: natStr x.2) ++ "] ".toList ++ (" | ".toList).intercalate metadata

/-- The lines in front of a source, where `l` are the sources before it. -/
def linesBefore (l : List (RerankedEvidence × Nat)) : List Text := l.flatMap fun y => lines (formatSource y) ++ [[]]

/-! ## Reading -/

/-- The web source whose untrusted block the reader is in, and the lines that it has seen outside such blocks. -/
structure Reader where
  inside : Option Nat
  shown : List Text

/-- A block of one of the web sources ends at the first line that matches its beginning. -/
def readLine (web : List Nat) (r : Reader) (line : Text) : Reader :=
  match r.inside with
  | some i => if line = endLine i then { r with inside := none } else r
  | none =>
      match web.find? fun i => line = beginLine i with
      | some i => { r with inside := some i }
      | none => { r with shown := r.shown ++ [line] }

def shownOutside (web : List Nat) (text : Text) : List Text := ((lines text).foldl (readLine web) ⟨none, []⟩).shown

def webNumbers (candidates : List RerankedEvidence) : List Nat :=
  ((candidates.zipIdx 1).filter fun x => x.1.isWeb).map Prod.snd

end Etoeragcb.Rag
