import GscAssembler.Proofs.Control.Steps
import GscAssembler.Proofs.Name.Folding

/-!
# The names that code is made of

Code stores hashes of names, and the names stand in the tree or are the compiler's own.  A
`Vocabulary` says which names may be hashed and which hashes may be stored, so that it can be
followed through lowering where the hashes of an image come from: a value of lowering is `Known` if
the vocabulary has whatever names and hashes are in it.
-/

namespace GscAssembler.Lowering

open Name (hashToken? literal? literal?_eq_none)
open Reference (ImportKey)
open SyntaxTree (Node)
open Text (asciiLower)

variable {α : Type}

/-- The names and hashes that lowering may use, and whether it may find a macro that leads back to
itself. -/
structure Vocabulary where
  /-- The texts that stand in the tree. -/
  spelled : String → Prop
  /-- The hashes of names that may be stored. -/
  hashes : UInt64 → Prop
  /-- The hash values that code may push. -/
  values : UInt64 → Prop
  /-- Whether there may be a cyclic macro. -/
  cycle : Prop
  /-- The hash of a name may be pushed. -/
  pushed : ∀ {hash : UInt64}, hashes hash → values hash
  /-- A value that is written out may be pushed. -/
  written : ∀ {revision : Revision} {token : String} {value : UInt64}, spelled token →
    hashToken? revision token = some value → values value

namespace Vocabulary

/-- All names and hashes, for what does not depend on them. -/
def all (cycle : Prop) : Vocabulary where
  spelled _ := True
  hashes _ := True
  values _ := True
  cycle := cycle
  pushed _ := trivial
  written _ _ := trivial

/-- The names that may be hashed: those of the tree in whatever case, and names that are never hash
literals, as the compiler's own are. -/
def texts (v : Vocabulary) (name : String) : Prop :=
  (∃ text, v.spelled text ∧ asciiLower name = asciiLower text) ∨
    ∀ revision, literal? revision name = none

end Vocabulary

/-- A text that stands somewhere in a tree. -/
inductive Spelled (text : String) : Node → Prop where
  | here {n : Node} (htext : n.text? = some text) : Spelled text n
  | inside {n child : Node} (hchild : child ∈ n.children) (h : Spelled text child) : Spelled text n

/-- What it means for the values of a type that a vocabulary has their names and hashes. -/
class Wording (α : Type) where
  /-- Whether a vocabulary has what is in a value. -/
  known : Vocabulary → α → Prop

-- most values that lowering passes on have no names in them
instance (priority := low) : Wording α where
  known _ _ := True

instance : Wording String where
  known v name := v.texts name

instance : Wording UInt32 where
  known v hash := v.hashes hash.toUInt64

instance : Wording UInt64 where
  known v hash := v.hashes hash

instance : Wording ImportKey where
  known v key := v.hashes key.function.toUInt64 ∧ v.hashes key.namespaceHash.toUInt64

instance : Wording Node where
  known v n := ∀ text, Spelled text n → v.spelled text

/-- A value whose names and hashes a vocabulary has, as far as what is given holds.  What steps of
lowering give is taken into account where they are followed by others. -/
class Known (given : Prop) (v : Vocabulary) [Wording α] (a : α) : Prop where
  /-- The vocabulary has them. -/
  known : given → Wording.known v a

variable {given : Prop} {v : Vocabulary}

instance (a : α) : Known given v a := ⟨fun _ => trivial⟩

instance [Wording α] (a : α) : Known (given ∧ Wording.known v a) v a := ⟨And.right⟩

instance [Wording α] {a : α} {more : Prop} [h : Known given v a] : Known (given ∧ more) v a :=
  ⟨fun hgiven => h.known hgiven.1⟩

instance (cycle : Prop) (n : Node) : Known given (.all cycle) n := ⟨fun _ _ _ => trivial⟩

instance (name : String) [h : Known given v name] : Known given v (asciiLower name) where
  known hgiven := by
    rcases h.known hgiven with ⟨text, htext, hname⟩ | hname
    · exact .inl ⟨text, htext, by rw [Text.asciiLower_asciiLower, hname]⟩
    · exact .inr fun revision => by rw [Name.literal?_asciiLower, hname]

instance {key : ImportKey} [hfunction : Known given v key.function]
    [hnamespace : Known given v key.namespaceHash] : Known given v key :=
  ⟨fun hgiven => ⟨hfunction.known hgiven, hnamespace.known hgiven⟩⟩

theorem Known.text {n : Node} (h : Known given v n) {text : String} (htext : n.text? = some text) :
    Known given v text :=
  ⟨fun hgiven => .inl ⟨text, h.known hgiven text (.here htext), rfl⟩⟩

theorem Known.child {n child : Node} (h : Known given v n) (hchild : child ∈ n.children) :
    Known given v child :=
  ⟨fun hgiven text htext => h.known hgiven text (.inside hchild htext)⟩

theorem known_of_ordinary {name : String} (h : ∀ revision, literal? revision name = none) :
    Known given v name :=
  ⟨fun _ => .inr h⟩

-- the names of synthetic variables
instance (rest : String) : Known given v ("$" ++ rest) :=
  known_of_ordinary fun revision =>
    literal?_eq_none '$' String.toList_append (by cases revision <;> decide)

-- the names of the functions that test types
instance (rest : String) : Known given v ("is" ++ rest) :=
  known_of_ordinary fun revision =>
    literal?_eq_none 'i' String.toList_append (by cases revision <;> decide)

end GscAssembler.Lowering
