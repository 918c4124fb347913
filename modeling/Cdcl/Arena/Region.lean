import Cdcl.Error

/-!
# Arenas of words

An arena hands out regions of consecutive words from its end, up to a limit. A region is never
handed back on its own: what is freed is only counted as waste, until the whole arena is copied.

Main statement: `claim_eq_ok_iff`, a claim succeeds exactly if the words fit below the limit.
-/

namespace Cdcl

/-- The accounts of an arena, in words. -/
structure Space where
  used : Nat := 0
  wasted : Nat := 0
  limit : Nat
  deriving DecidableEq, Repr

namespace Space

/-- Take `n` words at the end. -/
def claim (s : Space) (n : Nat) : Except SolverError Space :=
  if s.limit < s.used + n then .error (.arenaExhausted (s.used + n) s.limit)
  else .ok { s with used := s.used + n }

/-- Count `n` words as waste. -/
def waste (s : Space) (n : Nat) : Space := { s with wasted := s.wasted + n }

/-- The words in use and not wasted. -/
def live (s : Space) : Nat := s.used - s.wasted

theorem claim_eq_ok_iff {s t : Space} {n : Nat} :
    s.claim n = .ok t ↔ s.used + n ≤ s.limit ∧ t = { s with used := s.used + n } := by
  unfold claim
  split
  · simp; omega
  · simp only [Except.ok.injEq]
    constructor
    · rintro rfl; exact ⟨by omega, rfl⟩
    · rintro ⟨_, rfl⟩; rfl

theorem claim_eq_error_iff {s : Space} {n : Nat} {e : SolverError} :
    s.claim n = .error e ↔
      s.limit < s.used + n ∧ e = .arenaExhausted (s.used + n) s.limit := by
  unfold claim
  split
  · simp only [Except.error.injEq]
    constructor
    · rintro rfl; exact ⟨by omega, rfl⟩
    · rintro ⟨_, rfl⟩; rfl
  · simp; omega

end Space

/-- The place of a word in an arena. -/
structure Offset where
  word : Nat
  deriving DecidableEq, Repr

namespace Offset

/-- Stands for "no place"; no arena is that long. -/
def missing : Offset := ⟨1 <<< 32 - 1⟩

def describe (o : Offset) : String :=
  if o = missing then "Ref(UNDEF)" else s!"Ref({o.word})"

instance : Ord Offset where
  compare a b := compare a.word b.word

end Offset

/-- An arena of words, all zero when handed out. -/
structure Region where
  space : Space
  words : Array UInt32 := #[]

namespace Region

def empty (limit : Nat) : Region := { space := { limit } }

/-- Hand out `n` words. -/
def alloc (r : Region) (n : Nat) : Except SolverError (Offset × Region) :=
  match r.space.claim n with
  | .error e => .error e
  | .ok space => .ok (⟨r.words.size⟩, { space, words := r.words ++ Array.replicate n 0 })

/-- Count `n` words as waste. -/
def free (r : Region) (n : Nat) : Region := { r with space := r.space.waste n }

/-- The wasted words, counted modulo `2 ^ 32`. -/
def wasted (r : Region) : Nat := r.space.wasted % 1 <<< 32

/-- The word `i` places after the offset. -/
def get? (r : Region) (o : Offset) (i : Nat) : Except Fault UInt32 :=
  match r.words[o.word + i]? with
  | some w => .ok w
  | none => .error .outOfRange

/-- Overwrite the word `i` places after the offset. -/
def set? (r : Region) (o : Offset) (i : Nat) (w : UInt32) : Except Fault Region :=
  if o.word + i < r.words.size then
    .ok { r with words := r.words.setIfInBounds (o.word + i) w }
  else .error .outOfRange

/-- The `n` words from the offset on. -/
def read? (r : Region) (o : Offset) (n : Nat) : Except Fault (List UInt32) :=
  if o.word + n ≤ r.words.size then .ok ((r.words.toList.drop o.word).take n)
  else .error .outOfRange

/-- Overwrite the words from the offset on. -/
def write? (r : Region) (o : Offset) (ws : List UInt32) : Except Fault Region :=
  if o.word + ws.length ≤ r.words.size then
    .ok { r with
      words := ws.zipIdx.foldl (fun words (w, i) => words.setIfInBounds (o.word + i) w) r.words }
  else .error .outOfRange

end Region

end Cdcl
