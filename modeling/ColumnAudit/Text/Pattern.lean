import ColumnAudit.Text.Word

/-! # Patterns

A pattern is put together from characters of a class, boundaries of words and lines, sequences,
alternatives and repetitions. A match is looked for by trying: `Pattern.attempt` goes through the matches
that start at a place, one after the other, until what has to come behind the match succeeds. Of two
alternatives the first one is tried first; a repetition goes on as long as it can before it stops
(`many`), or stops as soon as it can (`few`).

`Grouped` is a pattern with a group in it. `Pattern.found` and `Grouped.captured` collect the matches in
a text from left to right; the search goes on behind each of them. What stands before a place counts only
for the boundaries.
-/

namespace ColumnAudit.Text
set_option autoImplicit false

/-- A place in a text that is being matched. -/
structure Place where
  /-- The character in front of the place. -/
  previous : Option Char
  /-- The text behind the place. -/
  behind : List Char
  /-- How many characters the match has taken up so far. -/
  taken : Nat

/-- Whether a word character stands on just one side of a place. -/
def Place.isBoundary (s : Place) : Bool := s.previous.any isWord != s.behind.head?.any isWord

/-- Whether a place is at the front of a text or behind a line end. -/
def Place.isLineStart (s : Place) : Bool := s.previous.all (· == '\n')

/-- What is looked for in a text. -/
inductive Pattern where
  /-- A character of a class. -/
  | one (p : Char → Bool)
  | nothing
  /-- The start or the end of a word. -/
  | boundary
  /-- The start of a line. -/
  | lineStart
  | seq (p q : Pattern)
  /-- One of two, the first if possible. -/
  | either (p q : Pattern)
  /-- One match or more, one behind the other, as many as possible. -/
  | many (p : Pattern)
  /-- Any number of matches, one behind the other, as few as possible. -/
  | few (p : Pattern)

namespace Pattern

section Attempts
variable {α : Type}

/-- One or more rounds of a step, of which there are at most one more than the list has members. After
each round another one is tried before the repetition stops. -/
def rounds (step : Place → (Place → Option α) → Option α) :
    List Char → Place → (Place → Option α) → Option α
  | [], s, next => step s next
  | _ :: more, s, next => step s fun s' => (rounds step more s' next).or (next s')

/-- Any number of rounds of a step, of which there are at most as many as the list has members. Before
each round the repetition tries to stop. -/
def fewRounds (step : Place → (Place → Option α) → Option α) :
    List Char → Place → (Place → Option α) → Option α
  | [], s, next => next s
  | _ :: more, s, next => (next s).or (step s fun s' => fewRounds step more s' next)

/-- What `next` makes of the end of a match that starts at a place. The matches are tried one after the
other, until `next` makes something of one. -/
def attempt : Pattern → Place → (Place → Option α) → Option α
  | one _, ⟨_, [], _⟩, _ => none
  | one p, ⟨_, c :: cs, taken⟩, next => if p c then next ⟨some c, cs, taken + 1⟩ else none
  | nothing, s, next => next s
  | boundary, s, next => if s.isBoundary then next s else none
  | lineStart, s, next => if s.isLineStart then next s else none
  | seq p q, s, next => p.attempt s fun s' => q.attempt s' next
  | either p q, s, next => (p.attempt s next).or (q.attempt s next)
  | many p, s, next => rounds p.attempt s.behind s next
  | few p, s, next => fewRounds p.attempt s.behind s next

end Attempts

/-- Any character. -/
def any : Pattern := one fun _ => true

/-- Any number of matches, one behind the other, as many as possible. -/
def star (p : Pattern) : Pattern := either (many p) nothing

/-- A character that starts a name and any number of characters that go on it. -/
def headed (start part : Char → Bool) : Pattern := seq (one start) (star (one part))

/-- The characters of a text. -/
def literal : List Char → Pattern
  | [] => nothing
  | c :: cs => seq (one (· == c)) (literal cs)

/-- One of several texts, which are tried in their order. -/
def among : List String → Pattern
  | [] => one fun _ => false
  | text :: texts => either (literal text.toList) (among texts)

/-- A match that is a whole word, or several of them with what stands between. -/
def wholeWord (p : Pattern) : Pattern := seq boundary (seq p boundary)

end Pattern

/-! ## Groups -/

/-- A pattern with a group. -/
inductive Grouped where
  | group (p : Pattern)
  /-- Something else, and the group behind it. -/
  | lead (p : Pattern) (g : Grouped)
  /-- The group, and something else behind it. -/
  | trail (g : Grouped) (p : Pattern)
  /-- One of two with a group each, the first if possible. -/
  | either (g h : Grouped)

/-- A match of a pattern with a group: the places around the group, and the end of the match. -/
structure Match where
  opened : Place
  closed : Place
  stop : Place

/-- The text of the group, and how many characters the match takes up. -/
def Match.found (m : Match) : List Char × Nat :=
  (m.opened.behind.take (m.closed.taken - m.opened.taken), m.stop.taken)

/-- What `next` makes of a match that starts at a place. The matches are tried one after the other, until
`next` makes something of one. -/
def Grouped.attempt {α : Type} : Grouped → Place → (Match → Option α) → Option α
  | group p, s, next => p.attempt s fun e => next ⟨s, e, e⟩
  | lead p g, s, next => p.attempt s fun s' => g.attempt s' next
  | trail g p, s, next => g.attempt s fun m => p.attempt m.stop fun e => next { m with stop := e }
  | either g h, s, next => (g.attempt s next).or (h.attempt s next)

/-! ## Searches -/

/-- What a search finds in a text behind a character, whose first `skip` characters belong to the match
before. `first?` says what is found at the front of a text behind a character, and how many characters it
takes up. -/
def searchFrom {α : Type} (first? : Option Char → List Char → Option (α × Nat)) :
    Nat → Option Char → List Char → List α
  | _, _, [] => []
  | skip + 1, _, c :: cs => searchFrom first? skip (some c) cs
  | 0, previous, c :: cs =>
    match first? previous (c :: cs) with
    | some (a, size) => a :: searchFrom first? (size - 1) (some c) cs
    | none => searchFrom first? 0 (some c) cs

/-- The match that is tried first, of those that start between a character and a text. -/
def Pattern.first? (p : Pattern) (previous : Option Char) (t : List Char) : Option (List Char × Nat) :=
  p.attempt ⟨previous, t, 0⟩ fun e => some (t.take e.taken, e.taken)

/-- The matches in a text, from left to right and without overlap. -/
def Pattern.found (p : Pattern) (t : List Char) : List (List Char) := searchFrom p.first? 0 none t

/-- The group of the match that is tried first, of those that start between a character and a text. -/
def Grouped.first? (g : Grouped) (previous : Option Char) (t : List Char) : Option (List Char × Nat) :=
  g.attempt ⟨previous, t, 0⟩ fun m => some m.found

/-- The groups of the matches in a text, from left to right and without overlap. -/
def Grouped.captured (g : Grouped) (t : List Char) : List (List Char) := searchFrom g.first? 0 none t

end ColumnAudit.Text
