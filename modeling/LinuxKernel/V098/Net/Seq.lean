/-!
# LinuxKernel.V098.Net.Seq

The comparisons of `net/tcp/tcp.h`, for numbers below `2 ^ 32` that are not at the edge of a
word: the sums and differences here are those of the code.
-/

namespace LinuxKernel.V098.Net

/-- From here on `before` takes a number for one that is about to wrap. -/
def SEQ_WRAP : Nat := 0xffffff - 4096 + 1

def before (seq1 seq2 : Nat) : Bool :=
  if seq1 = seq2 then false
  else if seq1 < seq2 then
    if seq2 - seq1 < 32767 then true else false
  else if seq2 < 4096 ∧ 0xffffff - 4096 < seq1 then true
  else false

def after (seq1 seq2 : Nat) : Bool := before seq2 seq1

def between (seq1 seq2 seq3 : Nat) : Bool := after (seq1 + 1) seq2 && before seq1 (seq3 + 1)

variable {seq1 seq2 : Nat}

/-- Far from the wrap, `before` is `<` between numbers that are close. -/
theorem before_iff (h : seq1 < SEQ_WRAP) :
    before seq1 seq2 = true ↔ seq1 < seq2 ∧ seq2 < seq1 + 32767 := by
  unfold SEQ_WRAP at h
  unfold before
  split
  · next he => simp [he]
  · split
    · split
      · next hd => simp only [true_iff]; omega
      · next hd => simp only [Bool.false_eq_true, false_iff]; omega
    · rw [if_neg (by omega)]
      simp only [Bool.false_eq_true, false_iff]
      omega

end LinuxKernel.V098.Net
