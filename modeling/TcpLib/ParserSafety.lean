import TcpLib.ParserAgreement

/-!
# The parse loops on buffers of any length

The bound checks compare the low 32 bits of differences of `size_t` values, so on a buffer that no
`int` can measure they may end a loop early. They never let it go on wrongly: what passes both is
inside the buffer for every length of type `size_t`.
-/

namespace TcpLib
open Framing LinearBuffer

/-- A round of a parse loop that is followed by another: the read positions before and after it. -/
def Round (pstr : Memory) (len readpos readpos' : ℕ) : Prop :=
  ∃ f, frameAt pstr len readpos = some f ∧ readpos' = nextReadpos readpos f

/-- The read positions that the rounds lead to. -/
def Reached (pstr : Memory) (len : ℕ) : ℕ → Prop := Relation.ReflTransGen (Round pstr len) 0

/-- What neither loop gets wrong. -/
structure ParserSafe (pstr : Memory) (len : ℕ) : Prop where
  terminates : Acc (fun next readpos => Round pstr len readpos next) 0
  reads : ∀ readpos, Reached pstr len readpos →
    ∀ read ∈ frameReads pstr len readpos, read.1 + read.2 ≤ len
  noOverflow : ∀ readpos, Reached pstr len readpos →
    ∀ f ∈ frameAt pstr len readpos, f.header.dataSize.toInt < intMax
  server : ∀ hub clientid log, ∃ out : ℕ × List Offer, out.1 ≤ len ∧
    (∀ fuel ≥ len, TcpServerNotify.parseLoop hub clientid pstr len fuel 0 log = out) ∧
    (0 < clientid → TcpServerNotify.onRecvData hub clientid (some pstr) len log = out)
  client : ∀ heap st, ∃ out : ℕ × TcpClientNotify, out.1 ≤ len ∧
    (∀ fuel ≥ len, TcpClientNotify.parseLoop heap pstr len fuel 0 st = some out) ∧
    TcpClientNotify.onRecvData heap (some pstr) len st = some out

section
variable {pstr : Memory} {len readpos readpos' : ℕ}

theorem Round.le (hlen : len < 2 ^ 64) (hpos : readpos ≤ len) (h : Round pstr len readpos readpos') :
    readpos < readpos' ∧ readpos' ≤ len := by
  obtain ⟨f, hf, rfl⟩ := h
  have hfit := (frameAt_fits hlen hpos hf).1
  have hpos := f.header_lt_size
  rw [nextReadpos_eq (hfit.trans_lt hlen)]
  omega

theorem Reached.le (hlen : len < 2 ^ 64) (h : Reached pstr len readpos) : readpos ≤ len := by
  induction h with
  | refl => exact Nat.zero_le _
  | tail _ hround ih => exact (hround.le hlen ih).2

/-- Every round shortens what is left to parse. -/
theorem round_acc (hlen : len < 2 ^ 64) (hpos : readpos ≤ len) :
    Acc (fun next readpos => Round pstr len readpos next) readpos := by
  induction hn : len - readpos using Nat.strong_induction_on generalizing readpos with
  | _ n ih =>
    constructor
    intro next hround
    obtain ⟨hlt, hle⟩ := hround.le hlen hpos
    exact ih (len - next) (by omega) hle rfl

theorem TcpServerNotify.parseLoop_safe (pstr : Memory) (hub : Hub) (clientid : ℕ) (hlen : len < 2 ^ 64)
    (hpos : readpos ≤ len) (log : List Offer) :
    ∃ out : ℕ × List Offer, out.1 ≤ len ∧
      ∀ fuel ≥ len - readpos, parseLoop hub clientid pstr len fuel readpos log = out := by
  induction hn : len - readpos using Nat.strong_induction_on generalizing readpos log with
  | _ n ih =>
    cases hf : frameAt pstr len readpos with
    | none =>
      refine ⟨(readpos, log), hpos, ?_⟩
      intro fuel _
      cases fuel with
      | zero => rfl
      | succ fuel => rw [parseLoop, hf]
    | some f =>
      obtain ⟨hlt, hle⟩ := Round.le hlen hpos ⟨f, hf, rfl⟩
      cases hans : hub log clientid f with
      | true =>
        obtain ⟨out, hout, hloop⟩ :=
          ih (len - nextReadpos readpos f) (by omega) hle (log ++ [⟨clientid, f, true⟩]) rfl
        refine ⟨out, hout, ?_⟩
        intro fuel hfuel
        obtain ⟨fuel, rfl⟩ := Nat.exists_eq_add_one_of_ne_zero (show fuel ≠ 0 by omega)
        simp only [parseLoop, hf, hans, if_true]
        exact hloop fuel (by omega)
      | false =>
        refine ⟨(readpos, log ++ [⟨clientid, f, false⟩]), hpos, ?_⟩
        intro fuel hfuel
        obtain ⟨fuel, rfl⟩ := Nat.exists_eq_add_one_of_ne_zero (show fuel ≠ 0 by omega)
        simp only [parseLoop, hf, hans]
        rfl

theorem TcpClientNotify.parseLoop_safe (pstr heap : Memory) (hlen : len < 2 ^ 64)
    (hpos : readpos ≤ len) (st : TcpClientNotify) :
    ∃ out : ℕ × TcpClientNotify, out.1 ≤ len ∧
      ∀ fuel ≥ len - readpos, parseLoop heap pstr len fuel readpos st = some out := by
  induction hn : len - readpos using Nat.strong_induction_on generalizing readpos st with
  | _ n ih =>
    cases hf : frameAt pstr len readpos with
    | none =>
      refine ⟨(readpos, st), hpos, ?_⟩
      intro fuel _
      cases fuel with
      | zero => rfl
      | succ fuel => rw [parseLoop, hf]
    | some f =>
      obtain ⟨hlt, hle⟩ := Round.le hlen hpos ⟨f, hf, rfl⟩
      obtain ⟨cache, hcopy⟩ := handleFrame_eq heap st (frameAt_fits hlen hpos hf).2
      obtain ⟨out, hout, hloop⟩ :=
        ih (len - nextReadpos readpos f) (by omega) hle ⟨cache, st.handled ++ [.ofFrame f]⟩ rfl
      refine ⟨out, hout, ?_⟩
      intro fuel hfuel
      obtain ⟨fuel, rfl⟩ := Nat.exists_eq_add_one_of_ne_zero (show fuel ≠ 0 by omega)
      simp only [parseLoop, hf, hcopy, Option.bind_some]
      exact hloop fuel (by omega)

/-- Both parsers are safe for every length of type `size_t`. -/
theorem parser_safe (pstr : Memory) {len : ℕ} (hpos : 0 < len) (hlen : len < 2 ^ 64) :
    ParserSafe pstr len where
  terminates := round_acc hlen (Nat.zero_le len)
  reads := by
    intro readpos hreached read hread
    exact (frameReads_inside hlen (hreached.le hlen) hread).2
  noOverflow := by
    intro readpos hreached f hf
    have hfit := (frameAt_fits hlen (hreached.le hlen) hf).2
    have heq := f.size_eq
    unfold Frame.size msgHeaderSize at hfit
    omega
  server := by
    intro hub clientid log
    obtain ⟨out, hout, hloop⟩ :=
      TcpServerNotify.parseLoop_safe pstr hub clientid hlen (Nat.zero_le len) log
    refine ⟨out, hout, hloop, ?_⟩
    intro hid
    rw [TcpServerNotify.onRecvData, if_neg (by omega)]
    exact hloop len le_rfl
  client := by
    intro heap st
    obtain ⟨out, hout, hloop⟩ :=
      TcpClientNotify.parseLoop_safe pstr heap hlen (Nat.zero_le len) st
    refine ⟨out, hout, hloop, ?_⟩
    rw [TcpClientNotify.onRecvData, if_neg (by omega)]
    exact hloop len le_rfl

end

/-- The largest length, and a buffer of equal bytes. -/
theorem parser_safe_largest : 0 < sizeMax ∧ sizeMax < 2 ^ 64 ∧ ParserSafe (fun _ => 127) sizeMax :=
  ⟨by decide, by decide, parser_safe (fun _ => 127) (by decide) (by decide)⟩

end TcpLib
