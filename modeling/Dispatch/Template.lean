import Dispatch.Failure

/-!
# Templates

Arguments may refer to the model store.  In a template a key between braces stands
for its value, and a brace that is meant as such is doubled.  `Template.scan` takes
a template apart; `Template.fill` puts the pieces together for a store, and never
looks at an inserted value again.
-/

namespace Dispatch.Template

/-- What the keys stand for. -/
structure Context where
  storePath : String

/-- The keys that a template may use. -/
inductive Key
  | storePath
deriving DecidableEq

namespace Key

/-- A key as templates write it. -/
def name : Key → String
  | .storePath => "AMS_STORE_PATH"

/-- All keys. -/
def all : List Key :=
  [.storePath]

/-- What a key stands for. -/
def value (context : Context) : Key → String
  | .storePath => context.storePath

/-- The key of a name. -/
def ofName? (name : String) : Option Key :=
  all.find? fun key => key.name == name

end Key

/-- A part of a template. -/
inductive Piece
  | char (c : Char)
  | openBrace
  | closeBrace
  | key (key : Key)
deriving DecidableEq

/-- Why a text is no template. -/
inductive Fault
  | unbalanced (brace : Char)
  | unknown (key : String)
deriving DecidableEq

/-- Pieces with one more in front. -/
def consPiece (piece : Piece) (rest : Except Fault (List Piece)) : Except Fault (List Piece) :=
  rest.map (piece :: ·)

/--
The pieces of a text, or the first place where none fits.  Inside braces the first
argument holds the characters since the opening one, the last of them first.
-/
def scan : Option (List Char) → List Char → Except Fault (List Piece)
  | none, [] => .ok []
  | none, '\x7b' :: '\x7b' :: rest => consPiece .openBrace (scan none rest)
  | none, '\x7d' :: '\x7d' :: rest => consPiece .closeBrace (scan none rest)
  | none, '\x7b' :: rest => scan (some []) rest
  | none, '\x7d' :: _ => .error (.unbalanced '\x7d')
  | none, c :: rest => consPiece (.char c) (scan none rest)
  | some _, [] => .error (.unbalanced '\x7b')
  | some _, '\x7b' :: _ => .error (.unbalanced '\x7b')
  | some read, '\x7d' :: rest =>
    match Key.ofName? (.ofList read.reverse) with
    | some known => consPiece (.key known) (scan none rest)
    | none => .error (.unknown (.ofList read.reverse))
  | some read, c :: rest => scan (some (c :: read)) rest

/-- What a piece stands for. -/
def Piece.meaning (context : Context) : Piece → List Char
  | .char c => [c]
  | .openBrace => ['\x7b']
  | .closeBrace => ['\x7d']
  | .key known => (known.value context).toList

/-- What pieces stand for together. -/
def fill (context : Context) (pieces : List Piece) : String :=
  .ofList (pieces.flatMap (Piece.meaning context))

/-- A fault of a template, as a failure. -/
def Fault.failure (template : String) : Fault → Failure
  | .unbalanced brace => .unbalancedBrace (.ofList [brace]) template
  | .unknown key => .unknownKey key template (Key.all.map Key.name)

/-- What a template stands for. -/
def format (context : Context) (template : String) : Except Failure String :=
  match scan none template.toList with
  | .ok pieces => .ok (fill context pieces)
  | .error fault => .error (fault.failure template)

/-- An argument with its template filled in, if it is a text. -/
def formatArgument (context : Context) : Value → Except Failure Value
  | .text template => (format context template).map .text
  | value => .ok value

end Dispatch.Template
