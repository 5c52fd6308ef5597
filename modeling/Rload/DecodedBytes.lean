import Rload.ResponseDecoder

/-!
# The bytes that a decoder counts

A decoder counts a byte of the body, holds it in a buffer, or drops it. Whatever the framing and
the fragments, the length of a body is smaller than the number of bytes that were fed.
-/

namespace Rload
open TextScanning

namespace ChunkedDecoder

/-- The bytes that are counted or still held. -/
def held (d : ChunkedDecoder) : ℕ := d.total + d.buffer.length

end ChunkedDecoder

/-- The decoder that a pass leaves. -/
def Pass.decoder : Pass → ChunkedDecoder
  | .next d | .wait d | .finished d | .failed _ d => d

namespace ChunkedDecoder

theorem pass_held (d : ChunkedDecoder) : d.pass.decoder.held ≤ d.held := by
  have hpasses := d.passes_pass
  generalize d.pass = p at hpasses ⊢
  cases hpasses with
  | size | noData | data | ending =>
    simp only [Pass.decoder, held, List.length_drop]
    omega
  | _ => exact le_rfl

theorem loop_held (fuel : ℕ) (d : ChunkedDecoder) : (loop fuel d).decoder.held ≤ d.held := by
  induction fuel generalizing d with
  | zero => exact le_rfl
  | succ fuel ih =>
    have hpass := d.pass_held
    rw [loop]
    cases hp : d.pass with
    | next d' =>
      rw [hp] at hpass
      exact (ih d').trans hpass
    | _ =>
      rw [hp] at hpass
      exact hpass

theorem feed_held (d : ChunkedDecoder) (data : List UInt8) (eof : Bool) :
    (d.feed data eof).2.held ≤ d.held + data.length := by
  have hloop := loop_held ((d.buffer ++ data).length + 1) { d with buffer := d.buffer ++ data }
  have hheld : held { d with buffer := d.buffer ++ data } = d.held + data.length := by
    rw [held, held, List.length_append, Nat.add_assoc]
  rw [hheld] at hloop
  unfold feed
  split
  all_goals
    rename_i h
    rw [h] at hloop
    exact hloop

theorem le_held_of_feed {d : ChunkedDecoder} {data : List UInt8} {eof : Bool} {length : ℕ}
    (h : (d.feed data eof).1 = .ok (some length)) : length ≤ (d.feed data eof).2.held := by
  unfold feed at h ⊢
  split at h
  · rename_i d' hfinished
    cases h
    exact Nat.le_add_right _ _
  · cases h
  all_goals
    simp only at h
    split at h
    · cases h
    · cases h

end ChunkedDecoder

namespace BodyDecoder

def held : BodyDecoder → ℕ
  | .waiting => 0
  | .contentLength _ total => total
  | .chunked d => d.held
  | .closeDelimited total => total

theorem consume_held (b : BodyDecoder) (data : List UInt8) (eof : Bool) :
    (b.consume data eof).2.held ≤ b.held + data.length := by
  cases b with
  | waiting => exact Nat.zero_le _
  | contentLength remaining total => exact Nat.add_le_add_left (Nat.min_le_left _ _) _
  | chunked d => exact d.feed_held data eof
  | closeDelimited total => exact le_rfl

theorem le_held_of_consume {b : BodyDecoder} {data : List UInt8} {eof : Bool} {length : ℕ}
    (h : (b.consume data eof).1 = .ok (some length)) : length ≤ (b.consume data eof).2.held := by
  cases b with
  | waiting => cases h
  | contentLength remaining total =>
    simp only [consume] at h ⊢
    split at h
    · cases h
      exact le_rfl
    · split at h
      · cases h
      · cases h
  | chunked d => exact ChunkedDecoder.le_held_of_feed h
  | closeDelimited total =>
    simp only [consume] at h ⊢
    split at h
    · cases h
      exact le_rfl
    · cases h

end BodyDecoder

namespace ResponseDecoder

/-- At least so many bytes were fed to the decoder: those that it collects for the head, or those
of the body and one of the head before it. -/
def Fed (n : ℕ) (d : ResponseDecoder) : Prop :=
  match d.head with
  | none => d.header.length ≤ n
  | some _ => d.body.held < n

variable {n : ℕ} {d : ResponseDecoder}

theorem fed_new (noBody : Bool) : (new noBody).Fed 0 := le_rfl

theorem fed_consumeBody (d : ResponseDecoder) {data : List UInt8}
    (hhead : d.head.isSome) (hheld : d.body.held + data.length < n) (eof : Bool) :
    (d.consumeBody data eof).2.Fed n ∧
      ∀ parsed, (d.consumeBody data eof).1 = .ok (some parsed) → parsed.bodyLength < n := by
  obtain ⟨head, hhead⟩ := Option.isSome_iff_exists.mp hhead
  have hkept := (d.body.consume_held data eof).trans_lt hheld
  unfold consumeBody
  cases hresult : (d.body.consume data eof).1 with
  | error halt =>
    simp only [hresult, Fed, hhead]
    exact ⟨hkept, fun _ => nofun⟩
  | ok length =>
    cases length with
    | none =>
      simp only [hresult, Fed, hhead]
      exact ⟨hkept, fun _ => nofun⟩
    | some length =>
      simp only [hresult, Fed, hhead]
      refine ⟨hkept, ?_⟩
      rintro parsed ⟨⟩
      exact (BodyDecoder.le_held_of_consume hresult).trans_lt hkept

theorem bodyOf_held (noBody : Bool) (framing : BodyFraming) : (bodyOf noBody framing).held = 0 := by
  unfold bodyOf
  split
  · rfl
  · split <;> rfl

/-- What a feed adds, and that a body is shorter than what was fed. -/
theorem Fed.feed (h : d.Fed n) (data : List UInt8) (eof : Bool) :
    (d.feed data eof).2.Fed (n + data.length) ∧
      ∀ parsed, (d.feed data eof).1 = .ok (some parsed) → parsed.bodyLength < n + data.length := by
  unfold ResponseDecoder.feed
  split
  · rename_i hhead
    obtain ⟨head, heq⟩ := Option.isSome_iff_exists.mp hhead
    rw [Fed, heq] at h
    exact d.fed_consumeBody hhead (Nat.add_lt_add_right h _) eof
  · rename_i hhead
    rw [Bool.not_eq_true, Option.isSome_eq_false_iff, Option.isNone_iff_eq_none] at hhead
    rw [Fed, hhead] at h
    have hlength : (d.header ++ data).length ≤ n + data.length := by
      rw [List.length_append]
      exact Nat.add_le_add_right h _
    simp only
    split
    · refine ⟨?_, fun parsed hparsed => ?_⟩
      · simp only [Fed, hhead]
        exact hlength
      · split at hparsed
        · cases hparsed
        · split at hparsed
          · cases hparsed
          · cases hparsed
    · rename_i headerEnd hfound
      have hfits : headerEnd + 4 ≤ (d.header ++ data).length := by
        obtain ⟨hstart, -⟩ := (firstOccurrence_eq_some_iff (by decide)).mp hfound
        have hle := hstart.length_le
        rw [List.length_drop] at hle
        have hfour : blankLine.length = 4 := rfl
        omega
      split
      · refine ⟨?_, fun _ => nofun⟩
        simp only [Fed, hhead]
        exact hlength
      · split
        · refine ⟨?_, fun _ => nofun⟩
          simp only [Fed, hhead]
          exact (List.length_take_le' _ _).trans hlength
        · apply fed_consumeBody
          · rfl
          · simp only [bodyOf_held, List.length_drop]
            omega

end ResponseDecoder

end Rload
