import OpenRar.Compress.BlockCoding
import OpenRar.Foundation.OverlapCopy

/-!
# Executing tokens

What the decoder does with a token, on the history of all decoded bytes in place of the
ring: its checks, its repeat distances and its last length, and a copy that goes byte by
byte.  A copy that reaches back further than a given limit, or before the first byte, is
not executed.

A chain of the token semantics is executed to its end, by every decoder that agrees with
what the writer of the chain knows of the repeat distances and the last length.
-/

namespace OpenRar.Compress

open RingHistory OverlapCopy List Option

namespace Decompressor50

/-- Execute one token. -/
def execute (limit : Nat) (s : Decompressor50 × List UInt8) (tok : BlockToken) :
    Option (Decompressor50 × List UInt8) :=
  (resolve s.1 tok).bind fun
    | .literal slot => some (s.1, s.2 ++ [UInt8.ofNat slot])
    | .filter _ _ _ _ => some s
    | .nothing => some s
    | .copy oldDist lastLength distance length =>
      if distance ≤ limit ∧ distance ≤ s.2.length then
        some ({ s.1 with oldDist := oldDist, lastLength := lastLength },
          copyBytes s.2 distance length)
      else none

/-- A larger limit allows the same executions. -/
theorem execute_mono {limit limit' : Nat} (hle : limit ≤ limit')
    {s s' : Decompressor50 × List UInt8}
    {tok : BlockToken} (h : execute limit s tok = some s') : execute limit' s tok = some s' := by
  unfold execute at h ⊢
  obtain ⟨action, hresolve, haction⟩ := bind_eq_some_iff.mp h
  rw [hresolve, bind_some]
  cases action with
  | copy oldDist lastLength distance length =>
    dsimp only at haction ⊢
    split at haction
    · next hreach => rw [if_pos ⟨hreach.1.trans hle, hreach.2⟩, haction]
    · cases haction
  | _ => exact haction

theorem execute_foldlM_mono {limit limit' : Nat} (hle : limit ≤ limit') :
    ∀ (toks : List BlockToken) {s s' : Decompressor50 × List UInt8},
      toks.foldlM (execute limit) s = some s' → toks.foldlM (execute limit') s = some s'
  | [], _, _, h => h
  | tok :: toks, s, s', h => by
      obtain ⟨s1, hfirst, hrest⟩ := bind_eq_some_iff.mp h
      exact bind_eq_some_iff.mpr
        ⟨s1, execute_mono hle hfirst, execute_foldlM_mono hle toks hrest⟩

/-- What a writer has set of the repeat distances and the last length is what the decoder
has. -/
structure Mirrors (reps : List Nat) (lastLen : Nat) (d : Decompressor50) : Prop where
  reps : RepsAgree reps d.oldDist
  last : lastLen ≠ 0 → d.lastLength = lastLen

variable {m : Member} {win : Reach} {st st' : LzState} {d : Decompressor50}

theorem copyBytes_copies {pos distance len : Nat} (h : Copies m win pos distance len) :
    copyBytes (m.prior ++ m.enc.take pos) distance len = m.prior ++ m.enc.take (pos + len) := by
  have hfit := h.fit
  have hreach := h.reach
  have hlen : ((m.enc.drop pos).take len).length = len := by
    rw [length_take, length_drop]
    omega
  have hcopy := copyBytes_isCopy h.copy h.dist_pos (by
    rw [length_append, length_take]
    omega)
  rw [hlen] at hcopy
  rw [hcopy, append_assoc, ← take_add]

theorem Copies.within {pos distance len : Nat} (h : Copies m win pos distance len) :
    distance ≤ win.dist ∧ distance ≤ (m.prior ++ m.enc.take pos).length := by
  have hfit := h.fit
  have hreach := h.reach
  refine ⟨h.dist_win, ?_⟩
  rw [length_append, length_take]
  omega

theorem Mirrors.distance (h : Mirrors st.reps st.lastLen d) {index distance : Nat}
    (hdistance : st.reps[index]? = some distance) (hset : distance ≠ Core.sizeMax) :
    d.oldDist.getD index 0 = distance := by
  rw [getD_eq_getElem?_getD, h.reps.agree index distance hdistance hset]
  rfl

/-- **A step of the token semantics is executed**, and the writer's values keep
agreeing. -/
theorem execute_step {tok : Token} (h : Step m win st tok st')
    (hmirror : Mirrors st.reps st.lastLen d) (hwin : win.dist ≤ d.engine.winSize) :
    ∃ d', execute win.dist (d, m.prior ++ m.enc.take st.pos) tok.block
        = some (d', m.prior ++ m.enc.take st'.pos) ∧
      Mirrors st'.reps st'.lastLen d' ∧ d'.engine = d.engine := by
  cases h with
  | literal hbyte _ =>
    refine ⟨d, ?_, hmirror, rfl⟩
    simp only [Token.block, execute, resolve, bind_some, UInt8.ofNat_toNat,
      append_assoc]
    rw [take_add_one, hbyte]
    rfl
  | @match_ lenSlot lenExtra distSlot distExtra distance len mode _ _ _ _ hdistance hlen hcopy _ =>
    have hreach : ¬ distance > d.engine.winSize := by
      have := hcopy.dist_win
      omega
    refine ⟨{ d with oldDist := distance :: d.oldDist.take 3, lastLength := len }, ?_,
      ⟨hmirror.reps.push distance, fun _ => rfl⟩, rfl⟩
    simp only [Token.block, hdistance, hlen, execute, resolve, if_neg hreach, bind_some,
      if_pos (Copies.within hcopy), copyBytes_copies hcopy]
  | @rep index lenSlot lenExtra distance len mode hindex _ _ hdistance hset hlen hcopy _ =>
    have husable := usableDistance_of_copies hcopy hset hwin
    refine ⟨{ d with oldDist := distance :: d.oldDist.eraseIdx index, lastLength := len }, ?_,
      ⟨hmirror.reps.rotate hindex distance, fun _ => rfl⟩, rfl⟩
    simp only [Token.block, hlen, execute, resolve, hmirror.distance hdistance hset, husable,
      not_true_eq_false, if_false, bind_some, if_pos (Copies.within hcopy),
      copyBytes_copies hcopy]
  | @lastLen distance mode hlast hdistance hset hcopy _ =>
    have husable := usableDistance_of_copies hcopy hset hwin
    have hlength := hmirror.last hlast
    refine ⟨{ d with lastLength := st.lastLen }, ?_, ⟨hmirror.reps, fun _ => rfl⟩, rfl⟩
    simp only [Token.block, execute, resolve, hmirror.distance hdistance hset, husable, hlength,
      hlast, ne_eq, not_true_eq_false, not_false_eq_true, if_true, if_false, bind_some,
      if_pos (Copies.within hcopy), copyBytes_copies hcopy]
  | filter _ _ _ _ _ _ _ _ => exact ⟨d, rfl, hmirror, rfl⟩

/-- **A chain of the token semantics is executed to its end.** -/
theorem execute_chain {tokens : List Token} (h : Chain m win st tokens st')
    (hmirror : Mirrors st.reps st.lastLen d) (hwin : win.dist ≤ d.engine.winSize) :
    ∃ d', (tokens.map Token.block).foldlM (execute win.dist) (d, m.prior ++ m.enc.take st.pos)
        = some (d', m.prior ++ m.enc.take st'.pos) ∧
      Mirrors st'.reps st'.lastLen d' := by
  induction h generalizing d with
  | nil => exact ⟨d, rfl, hmirror⟩
  | cons hstep _ ih =>
    obtain ⟨d1, hexecute, hmirror1, hengine⟩ := execute_step hstep hmirror hwin
    obtain ⟨d2, hrest, hmirror2⟩ := ih hmirror1 (hengine ▸ hwin)
    refine ⟨d2, ?_, hmirror2⟩
    rw [map_cons, foldlM_cons, hexecute]
    exact hrest

end Decompressor50

end OpenRar.Compress
