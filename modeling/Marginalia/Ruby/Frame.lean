/-
# Open stretches of a Ruby source

While a source is read, the stretches that are open at a place form a stack
of frames, innermost first. A frame knows what closes it and collects the
outlines of the stretches that were closed inside it. The frame of a class or
module definition also follows the parts of the declared name.

Key definitions: `Ruby.Opening`, `Ruby.Frame`, `Ruby.NamePhase`, `Ruby.Frame.outline`.
-/
import Marginalia.Ruby.Literal
import Marginalia.Ruby.Outline

namespace Marginalia
namespace Ruby

/-- How far the name of a definition has been read. -/
inductive NamePhase where
  /-- Nothing has been read. -/
  | due
  /-- A scope mark has been read. -/
  | partDue
  /-- The part read last is this constant. -/
  | constant (last : Text)
  /-- The part read last is no constant. -/
  | operand
  /-- A dot has been read. -/
  | methodDue
  /-- The name is complete, and the mark of a superclass has been read. -/
  | superclassDue
  /-- All has been read. -/
  | complete
deriving DecidableEq, Repr

/-- How far the head of a method definition has been read. -/
inductive HeadPhase where
  /-- The method's name has been read. -/
  | named
  /-- Its parameters in parentheses have been read. -/
  | listed
  /-- The body has begun. -/
  | complete
deriving DecidableEq, Repr

/-- What opened a stretch. -/
inductive Opening where
  /-- The source itself. -/
  | source
  /-- A class or module definition; `written` is the text from the start of its name on. -/
  | definition (kind : Declaration.Kind) (phase : NamePhase) (written : Text)
    (name : Option DeclaredName)
  /-- A method definition. -/
  | method (phase : HeadPhase)
  /-- A loop, which a `do` of its own may follow. -/
  | loop (takesDo : Bool)
  /-- Any other body that `end` closes. -/
  | body
  /-- A round bracket. -/
  | paren
  /-- A square bracket. -/
  | bracket
  /-- A brace. -/
  | brace
  /-- Code inside a quoted stretch. -/
  | code
  /-- A quoted stretch, with `depth` nested delimiters open. -/
  | quoted (quote : Quote) (depth : Nat)
  /-- The body of a here document. -/
  | heredoc (doc : Heredoc)
deriving DecidableEq, Repr

/-- A stretch that is open, and the outlines closed inside it, the last first. -/
structure Frame where
  /-- What opened the stretch. -/
  opening : Opening
  /-- Where it was opened. -/
  start : Place
  /-- What was closed inside, the last first. -/
  parts : List Outline := []
deriving Repr

namespace Opening

/-- Whether `end` closes the stretch. -/
def endsWithEnd : Opening → Bool
  | definition .. | method _ | loop _ | body => true
  | _ => false

/-- Whether the stretch is a definition with a usable name. -/
def isNamed : Opening → Bool
  | definition _ _ _ (some _) => true
  | _ => false

end Opening

/-- The outline of a frame that is closed at `stop`. -/
def Frame.outline (f : Frame) (stop : Place) : Outline :=
  match f.opening with
  | .definition kind _ _ name => .definition kind name f.start stop f.parts.reverse
  | _ => .group f.start stop f.parts.reverse

end Ruby
end Marginalia
