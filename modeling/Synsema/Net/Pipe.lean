import Mathlib.Logic.Relation
import Synsema.Bytesutil

/-!
# Pipes

Two ends of bytes that are connected in memory (`synsema-stdlib/src/pipe.rs`), each of which reads
what the other writes.  A direction has a lock of its own, which every operation takes for the whole
of what it does there, and the wakers decide nothing about the bytes: a run is that of one direction,
with what its writer and its reader do in any order.
-/

namespace Synsema.Pipe

open List Bytesutil

structure Dir where
  chunks : List Bytes
  len : Nat
  writerClosed : Bool
  readerClosed : Bool

inductive ReadOutcome where
  | data (b : Bytes)
  | empty
  | eof

inductive WriteError where
  | full
  | closed

def maxBufferCeiling : Nat := 64 * 1024 * 1024

namespace Dir

/-- The bytes that wait. -/
def bytes (d : Dir) : Bytes := d.chunks.flatten

/-- `PipeEnd::try_write`. -/
def tryWrite (cap : Nat) (data : Bytes) (d : Dir) : Except WriteError Nat × Dir :=
  if data.isEmpty then (.ok 0, d)
  else if d.readerClosed || d.writerClosed then (.error .closed, d)
  else
    let room := cap - d.len
    if room = 0 then (.error .full, d)
    else
      let n := min room data.length
      (.ok n, { d with chunks := d.chunks ++ [data.take n], len := d.len + n })

/-- The `while` of `try_read`: the bytes it has in the end, and the chunks it leaves. -/
def takeUpTo (max : Nat) (out : Bytes) : List Bytes → Bytes × List Bytes
  | [] => (out, [])
  | front :: rest =>
    if out.length < max then
      let take := min (max - out.length) front.length
      if take = front.length then takeUpTo max (out ++ front) rest
      -- `out` is full, and the loop ends.
      else (out ++ front.take take, front.drop take :: rest)
    else (out, front :: rest)

/-- `PipeEnd::try_read`. -/
def tryRead (max : Nat) (d : Dir) : ReadOutcome × Dir :=
  if d.len = 0 then (if d.writerClosed then .eof else .empty, d)
  else
    let r := takeUpTo max [] d.chunks
    (.data r.1, { d with chunks := r.2, len := d.len - r.1.length })

/-- What `close` does in the direction that its end reads. -/
def closeReader (d : Dir) : Dir := { d with readerClosed := true, chunks := [], len := 0 }

end Dir

/-- A direction with its limit and its history: what was accepted from the writer and given to the
reader, and whether the reader was told that there is no more. -/
structure Flow where
  cap : Nat
  dir : Dir
  accepted : Bytes
  delivered : Bytes
  eof : Bool

namespace Flow

/-- `pair`. -/
def new (cap : Nat) : Flow := ⟨min (max cap 1) maxBufferCeiling, ⟨[], 0, false, false⟩, [], [], false⟩

/-- What an end does. -/
inductive Act where
  | write (data : Bytes)
  | read (max : Nat)
  /-- `close_write`, or the first half of `close`. -/
  | closeWriter
  | closeReader

def step (f : Flow) : Act → Flow
  | .write data =>
    match f.dir.tryWrite f.cap data with
    | (.ok n, dir) => { f with dir, accepted := f.accepted ++ data.take n }
    | (.error _, dir) => { f with dir }
  | .read max =>
    match f.dir.tryRead max with
    | (.data b, dir) => { f with dir, delivered := f.delivered ++ b }
    | (.empty, dir) => { f with dir }
    | (.eof, dir) => { f with dir, eof := true }
  | .closeWriter => { f with dir.writerClosed := true }
  | .closeReader => { f with dir := f.dir.closeReader }

/-- A direction, after its ends did these. -/
def run (cap : Nat) (acts : List Act) : Flow := acts.foldl step (new cap)

end Flow

/-! ## Nothing is lost -/

theorem Dir.takeUpTo_eq {max : Nat} (chunks : List Bytes) (out : Bytes) (h : out.length ≤ max) :
    (takeUpTo max out chunks).1 = (out ++ chunks.flatten).take max ∧
      (takeUpTo max out chunks).2.flatten = (out ++ chunks.flatten).drop max := by
  induction chunks generalizing out with
  | nil => simp [takeUpTo, h]
  | cons front rest ih =>
    rw [takeUpTo, flatten_cons]
    dsimp only
    split_ifs with hlt heq
    · rw [← append_assoc]
      exact ih _ (by rw [length_append]; omega)
    · have htake : min (max - out.length) front.length = max - out.length := by omega
      rw [htake, take_append, drop_append, take_of_length_le h, drop_of_length_le h,
        take_append_of_le_length (by omega), drop_append_of_le_length (by omega)]
      exact ⟨rfl, rfl⟩
    · obtain rfl : out.length = max := by omega
      simp

/-- What is so of a direction, whatever its ends do. -/
structure Flow.Sound (f : Flow) : Prop where
  len : f.dir.len = f.dir.bytes.length
  cap : f.dir.len ≤ f.cap
  /-- What was accepted and not yet given waits, unless the reader closed. -/
  order : ∃ lost, f.accepted = f.delivered ++ f.dir.bytes ++ lost ∧
    (f.dir.readerClosed = false → lost = [])
  eof : f.eof → f.dir.readerClosed = false → f.dir.writerClosed ∧ f.dir.len = 0

namespace Flow.Sound

variable {f : Flow}

theorem write (h : f.Sound) (data : Bytes) : (f.step (.write data)).Sound := by
  rw [Flow.step, Dir.tryWrite]
  split_ifs with hnil hclosed
  · exact ⟨h.len, h.cap, by simpa using h.order, h.eof⟩
  · exact h
  · dsimp only
    split_ifs with hfull
    · exact h
    · simp only [Bool.or_eq_true, not_or, Bool.not_eq_true] at hclosed
      obtain ⟨lost, horder, hlost⟩ := h.order
      obtain rfl := hlost hclosed.1
      refine ⟨?_, ?_, ⟨[], ?_, fun _ => rfl⟩, fun heof _ => ?_⟩
      · simp [Dir.bytes, h.len]
      · have hcap := h.cap
        dsimp only
        omega
      · simp [Dir.bytes, horder]
      · exact absurd (h.eof heof hclosed.1).1 (by simp [hclosed.2])

theorem read (h : f.Sound) (max : Nat) : (f.step (.read max)).Sound := by
  rw [Flow.step, Dir.tryRead]
  split_ifs with hlen hclosed
  · exact ⟨h.len, h.cap, h.order, fun _ _ => ⟨hclosed, hlen⟩⟩
  · exact h
  · obtain ⟨htake, hdrop⟩ := Dir.takeUpTo_eq f.dir.chunks [] (Nat.zero_le max)
    obtain ⟨lost, horder, hlost⟩ := h.order
    refine ⟨?_, (Nat.sub_le _ _).trans h.cap, ⟨lost, ?_, hlost⟩, fun heof hopen => ?_⟩
    · change f.dir.len - (Dir.takeUpTo max [] f.dir.chunks).1.length = length (flatten _)
      rw [htake, hdrop, h.len, length_take, length_drop, nil_append, Dir.bytes]
      omega
    · change f.accepted = f.delivered ++ (Dir.takeUpTo max [] f.dir.chunks).1 ++ flatten _ ++ lost
      rw [append_assoc f.delivered, htake, hdrop, take_append_drop]
      exact horder
    · exact absurd (h.eof heof hopen).2 hlen

theorem step (h : f.Sound) (a : Act) : (f.step a).Sound := by
  cases a with
  | write data => exact h.write data
  | read max => exact h.read max
  | closeWriter => exact ⟨h.len, h.cap, h.order, fun heof hopen => ⟨rfl, (h.eof heof hopen).2⟩⟩
  | closeReader =>
    obtain ⟨lost, horder, -⟩ := h.order
    refine ⟨rfl, Nat.zero_le _, ⟨f.dir.bytes ++ lost, ?_, fun hopen => ?_⟩, fun _ hopen => ?_⟩
    · change f.accepted = f.delivered ++ [] ++ (f.dir.bytes ++ lost)
      rw [horder, append_nil, append_assoc]
    · cases hopen
    · cases hopen

theorem sound_run (cap : Nat) (acts : List Act) : (Flow.run cap acts).Sound := by
  have hrun : ∀ f : Flow, f.Sound → (acts.foldl Flow.step f).Sound := by
    induction acts with
    | nil => exact fun f h => h
    | cons a acts ih => exact fun f h => ih _ (h.step a)
  exact hrun _ ⟨rfl, Nat.zero_le _, ⟨[], rfl, fun _ => rfl⟩, fun heof => by cases heof⟩

end Flow.Sound

/-- **A pipe is a queue of bytes**: whatever its ends do, what one gave it comes out at the other in
order and once, as long as that one reads, and it never holds more than its limit. -/
theorem pipe_queue (cap : Nat) (acts : List Flow.Act) :
    (Flow.run cap acts).Sound ∧ ∀ max, (Flow.run cap acts).dir.bytes ≠ [] →
      ((Flow.run cap acts).dir.tryRead max).1 = .data ((Flow.run cap acts).dir.bytes.take max) := by
  have h := Flow.Sound.sound_run cap acts
  refine ⟨h, fun max hne => ?_⟩
  rw [Dir.tryRead, if_neg (h.len ▸ mt length_eq_zero_iff.mp hne)]
  exact congrArg ReadOutcome.data (Dir.takeUpTo_eq _ [] (Nat.zero_le max)).1

end Synsema.Pipe
