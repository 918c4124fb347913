import Cdcl.Arena.BitField
import Cdcl.Arena.Clause

/-!
# Clauses in words

An arena of clauses as it lies in memory. Every clause has a header, one word for each literal and, if it
was learnt, two more: the bits of its activity, and one word for its level count and its freeze count. Its
handle is the place of its header, which alone says how many words are the clause's.

An operation takes the words of one clause out of the arena, changes them and puts them back. Clauses are
named in the order in which they were stored.
-/

namespace Cdcl

/-- The words of a clause, taken apart. -/
structure ClauseWords where
  header : UInt32
  data : List UInt32
  /-- The words behind the literals of a learnt clause. -/
  extra : List UInt32

namespace Clause

/-- Level count and freeze count share a word. -/
def lbdField : BitField := { low := 0, width := 16 }

def freezeCountField : BitField := { low := 16, width := 16 }

/-- The number of words behind the literals. -/
def extraLength (learnt : Bool) : Nat := if learnt then 2 else 0

/-- What the words behind the literals of a learnt clause mean. -/
def infoOfWords (extra : List UInt32) (frozen : Bool) : LearntInfo where
  activity := .ofBits (extra.getD 0 0)
  lbd := lbdField.get (extra.getD 1 0)
  freezeCount := freezeCountField.get (extra.getD 1 0)
  frozen := frozen

/-- What the words of a clause mean. -/
def ofWords (c : ClauseWords) : Clause :=
  let h := Header.ofWord c.header.toNat
  { lits := (c.data.map fun w => Lit.ofCode w.toNat).toArray
    mark := h.mark
    learnt? := if h.learnt then some (infoOfWords c.extra h.frozen) else none
    relocated := h.relocated }

end Clause

/-- What can be done to a stored clause. -/
inductive ClauseEdit where
  | setLit (i : Nat) (l : Lit)
  | swap (i j : Nat)
  | setMark (mark : Nat)
  | setFrozen (frozen : Bool)
  | setLbd (n : Nat)
  | setFreezeCount (n : Nat)
  | setActivity (a : Float32)
  /-- Forget the literals from position `n` on. -/
  | shrink (n : Nat)

namespace ClauseWords

/-- The words of a clause as it is stored at first. -/
def fresh (lits : Array Lit) (learnt : Bool) : ClauseWords where
  header := .ofNat (Header.toWord { learnt, size := lits.size })
  data := lits.toList.map fun l => .ofNat l.code
  extra := if learnt then [(0 : Float32).toBits, 0] else []

/-- The words behind the header. -/
def body (c : ClauseWords) : List UInt32 := c.data ++ c.extra

/-- The words in the order in which they are stored. -/
def toList (c : ClauseWords) : List UInt32 := c.header :: c.body

/-- Take words apart as their header says. -/
def split (header : UInt32) (body : List UInt32) : ClauseWords :=
  let h := Header.ofWord header.toNat
  { header, data := body.take h.size, extra := (body.drop h.size).take (Clause.extraLength h.learnt) }

/-- Overwrite the word of a literal. -/
def setData (c : ClauseWords) (i : Nat) (w : UInt32) : Except Fault ClauseWords :=
  if i < c.data.length then .ok { c with data := c.data.set i w } else .error .outOfRange

/-- Exchange the words of two literals. -/
def swap (c : ClauseWords) (i j : Nat) : Except Fault ClauseWords :=
  match c.data[i]?, c.data[j]? with
  | some v, some w => .ok { c with data := (c.data.set i w).set j v }
  | _, _ => .error .outOfRange

/-- Change a word behind the literals. -/
def modifyExtra (c : ClauseWords) (i : Nat) (f : UInt32 → UInt32) : Except Fault ClauseWords :=
  if i < c.extra.length then .ok { c with extra := c.extra.modify i f } else .error .outOfRange

/-- Overwrite a word behind the header. -/
def place (c : ClauseWords) (i : Nat) (w : UInt32) : ClauseWords :=
  if i < c.data.length then { c with data := c.data.set i w }
  else { c with extra := c.extra.set (i - c.data.length) w }

/-- Forget literals. What is behind them follows the last one left, onto words of literals or its own. -/
def shrink (c : ClauseWords) (n : Nat) : ClauseWords :=
  if n = c.data.length then c
  else
    c.extra.zipIdx.foldl (fun d saved => d.place (n + saved.2) saved.1)
      { c with header := Header.sizeField.set c.header n }

/-- Do to the words of a clause what is to be done to the clause. -/
def edit (c : ClauseWords) : ClauseEdit → Except Fault ClauseWords
  | .setLit i l => c.setData i (.ofNat l.code)
  | .swap i j => c.swap i j
  | .setMark mark => .ok { c with header := Header.markField.set c.header mark }
  | .setFrozen frozen => .ok { c with header := Header.frozenField.set c.header frozen.toNat }
  | .setLbd n => c.modifyExtra 1 fun counts => Clause.lbdField.set counts (min n Clause.maxLbd)
  | .setFreezeCount n =>
    c.modifyExtra 1 fun counts => Clause.freezeCountField.set counts (min n Clause.maxLbd)
  | .setActivity a => c.modifyExtra 0 fun _ => a.toBits
  | .shrink n => .ok (c.shrink n)

end ClauseWords

namespace Region

/-- The words of the clause with its header at an offset. -/
def clauseWords? (r : Region) (o : Offset) : Except Fault ClauseWords :=
  match r.get? o 0 with
  | .error fault => .error fault
  | .ok header =>
    let h := Header.ofWord header.toNat
    match r.read? ⟨o.word + 1⟩ (h.size + Clause.extraLength h.learnt) with
    | .error fault => .error fault
    | .ok body => .ok (.split header body)

/-- Edit the clause at an offset. -/
def edit? (r : Region) (o : Offset) (edit : ClauseEdit) : Except Fault Region :=
  match r.clauseWords? o with
  | .error fault => .error fault
  | .ok c =>
    match c.edit edit with
    | .error fault => .error fault
    | .ok d => r.write? o d.toList

end Region

/-- An operation on an arena of clauses. -/
inductive ArenaOp where
  | store (lits : Array Lit) (learnt : Bool)
  | edit (id : ClauseId) (edit : ClauseEdit)
  /-- Count the words of a clause as waste. -/
  | free (id : ClauseId)
  /-- Count so many words as waste. -/
  | waste (n : Nat)

inductive ArenaAnswer where
  | stored (id : ClauseId)
  | refused (e : SolverError)
  | done
  deriving DecidableEq, Repr

/-- An arena of words, and the places of its clauses in the order in which they were stored. -/
structure PackedArena where
  region : Region
  places : Array Offset := #[]

namespace PackedArena

def empty (limit : Nat) : PackedArena := { region := .empty limit }

def place? (p : PackedArena) (id : ClauseId) : Except Fault Offset :=
  match p.places[id.slot]? with
  | some o => .ok o
  | none => .error .outOfRange

/-- The clause of a handle. -/
def read? (p : PackedArena) (id : ClauseId) : Except Fault Clause :=
  match p.place? id with
  | .error fault => .error fault
  | .ok o => (p.region.clauseWords? o).map Clause.ofWords

/-- Store a clause. -/
def store (p : PackedArena) (lits : Array Lit) (learnt : Bool) :
    Except Fault (ArenaAnswer × PackedArena) :=
  if Header.maxSize < lits.size then .ok (.refused (.clauseTooLarge lits.size), p)
  else
    match p.region.alloc (1 + lits.size + Clause.extraLength learnt) with
    | .error e => .ok (.refused e, p)
    | .ok (o, r) =>
      match r.write? o (ClauseWords.fresh lits learnt).toList with
      | .error fault => .error fault
      | .ok region => .ok (.stored ⟨p.places.size⟩, { region, places := p.places.push o })

/-- Do one operation. -/
def step (p : PackedArena) : ArenaOp → Except Fault (ArenaAnswer × PackedArena)
  | .store lits learnt => p.store lits learnt
  | .edit id edit =>
    match p.place? id with
    | .error fault => .error fault
    | .ok o =>
      match p.region.edit? o edit with
      | .error fault => .error fault
      | .ok region => .ok (.done, { p with region })
  | .free id =>
    match p.read? id with
    | .error fault => .error fault
    | .ok c => .ok (.done, { p with region := p.region.free c.words })
  | .waste n => .ok (.done, { p with region := p.region.free n })

/-- Do one operation after the other. -/
def run (p : PackedArena) : List ArenaOp → Except Fault (List ArenaAnswer × PackedArena)
  | [] => .ok ([], p)
  | op :: ops =>
    match p.step op with
    | .error fault => .error fault
    | .ok (answer, q) =>
      match q.run ops with
      | .error fault => .error fault
      | .ok (answers, q) => .ok (answer :: answers, q)

end PackedArena

/-! ### The same operations on clauses -/

/-- Do to a clause what is to be done to it. -/
def ClauseEdit.apply : ClauseEdit → Clause → Clause
  | .setLit i l, c => c.setLits (c.lits.setIfInBounds i l)
  | .swap i j, c => c.swap i j
  | .setMark mark, c => { c with mark }
  | .setFrozen frozen, c => c.setFrozen frozen
  | .setLbd n, c => c.setLbd n
  | .setFreezeCount n, c => c.setFreezeCount n
  | .setActivity a, c => c.setActivity a
  | .shrink n, c => c.setLits (c.lits.extract 0 n)

namespace ClauseArena

/-- Store a clause. -/
def store (a : ClauseArena) (lits : Array Lit) (learnt : Bool) : ArenaAnswer × ClauseArena :=
  match a.alloc lits learnt with
  | .error e => (.refused e, a)
  | .ok (id, b) => (.stored id, b)

/-- Do one operation. -/
def step (a : ClauseArena) : ArenaOp → ArenaAnswer × ClauseArena
  | .store lits learnt => a.store lits learnt
  | .edit id edit => (.done, a.modify id edit.apply)
  | .free id => (.done, a.free id)
  | .waste n => (.done, a.waste n)

/-- Do one operation after the other. -/
def run (a : ClauseArena) : List ArenaOp → List ArenaAnswer × ClauseArena
  | [] => ([], a)
  | op :: ops =>
    let (answer, b) := a.step op
    let (answers, b) := b.run ops
    (answer :: answers, b)

end ClauseArena

end Cdcl
