import Reflow.Proofs.Measure
import Reflow.Source

/-!
Line endings. A text whose endings are unified has line feeds only, and nothing that can be seen is
lost.
-/

namespace Reflow.Source

/-- A text without returns has its endings unified already. -/
theorem unifyEndings_eq_self {t : Text} (h : '\r' ∉ t) : unifyEndings t = t := by
  fun_induction unifyEndings t with
  | case1 => rfl
  | case2 t ih => simp at h
  | case3 t hNext ih => simp at h
  | case4 c t hPair hReturn ih => rw [ih fun hMem => h (List.mem_cons_of_mem c hMem)]

/-- No return is left, whether it stood before a line feed or by itself. -/
theorem return_notMem_unifyEndings (t : Text) : '\r' ∉ unifyEndings t := by
  fun_induction unifyEndings t with
  | case1 => simp
  | case2 t ih => simpa using ih
  | case3 t hNext ih => simpa using ih
  | case4 c t hPair hReturn ih =>
      intro hMem
      rcases List.mem_cons.mp hMem with rfl | hMem
      · exact hReturn rfl
      · exact ih hMem

/-- Line endings are blank, whichever they are, so a view that is blind for blanks does not tell
them apart. What stands in front is fixed, for the induction. -/
theorem view_unifyEndings {α : Type} {view : Text → List α} (hView : BlankBlind view)
    (front t : Text) :
    view (front ++ unifyEndings t) = view (front ++ t) := by
  have hFeed : isBlank '\n' = true := rfl
  have hReturn : isBlank '\r' = true := rfl
  fun_induction unifyEndings t generalizing front with
  | case1 => rfl
  | case2 t ih =>
      have hSkip : view ('\n' :: t) = view t := by
        simpa [hView.nil] using hView.append_blank [] '\n' t hFeed
      rw [hView.append_blank front '\n' _ hFeed, hView.append_blank front '\r' _ hReturn, hSkip]
      exact congrArg (view front ++ ·) (ih [])
  | case3 t hNext ih =>
      rw [hView.append_blank front '\n' _ hFeed, hView.append_blank front '\r' _ hReturn]
      exact congrArg (view front ++ ·) (ih [])
  | case4 c t hPair hReturn ih =>
      have hStep := ih (front ++ [c])
      rwa [List.append_assoc, List.append_assoc, List.singleton_append, List.singleton_append]
        at hStep

end Reflow.Source
