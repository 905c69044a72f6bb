import Swim.Files.Calls

/-!
# Swim.Files.Unlinked

A directory that was found through links, after the `unlink` of an entry in it: a link on the way
may have been that entry.

* `Leads`, `walk_concat` — where the last component of a path leads.
* `touch_unlinked`       — `touch` of the directory then changes nothing, or the entry was a link
  and is an empty file now.
-/

namespace Files

namespace Tree

variable {β : Type} {t t' t'' : Tree β} {d q : Path} {p rest : List String} {c : String} {m k : Nat}

theorem locate_ok {s : t.Slot} (h : t.locate p = .ok s) :
    p = p.dropLast ++ [s.name] ∧ t.resolve p.dropLast = .ok s.dir := by
  unfold locate at h
  split at h
  · cases h
  · split at h
    · cases h
    · rename_i name hlast
      split at h
      · cases h
      · rename_i dir hdir
        split at h
        · split at h
          · cases h
            exact ⟨(List.dropLast_append_getLast? name hlast).symm, hdir⟩
          · cases h
        · cases h

/-- From the directory `d` the name `c` leads to `q`. -/
def Leads (t : Tree β) (d : Path) (c : String) (q : Path) : Prop :=
  (∃ text m, t.get (d ++ [c]) = some (.link text) ∧ t.walk m (target d text) = .ok q) ∨
    ∃ node, t.get (d ++ [c]) = some node ∧ (∀ text, node ≠ .link text) ∧ q = d ++ [c]

theorem walkWith_concat (G : Path → Prop) {follow follow' : List String → Except OSError Path}
    {here : Path} (hfollow : ∀ x d, follow (x ++ [c]) = .ok q → follow' x = .ok d → G d)
    (hlast : ∀ d, t.walkWith follow d [c] = .ok q → G d)
    (h : t.walkWith follow here (rest ++ [c]) = .ok q) (h' : t.walkWith follow' here rest = .ok d) :
    G d := by
  induction rest generalizing here with
  | nil =>
    cases h'
    exact hlast _ h
  | cons name rest ih =>
    rw [List.cons_append, walkWith] at h
    rw [walkWith] at h'
    split at h
    · rename_i hdir
      rw [hdir] at h'
      dsimp only at h'
      split at h
      · rename_i hc
        rw [if_pos hc] at h'
        exact ih h h'
      · rename_i hc
        rw [if_neg hc] at h'
        split at h
        · rename_i hup
          rw [if_pos hup] at h'
          exact ih h h'
        · rename_i hup
          rw [if_neg hup] at h'
          cases hg : t.get (here ++ [name]) with
          | none =>
            rw [hg] at h
            cases h
          | some node =>
            rw [hg] at h h'
            cases node with
            | link text =>
              refine hfollow _ _ ?_ h'
              rw [List.append_assoc]
              exact h
            | file content => exact ih h h'
            | dir => exact ih h h'
    · cases h
    · cases h

theorem walkWith_last {follow : List String → Except OSError Path} (hc : Plain c)
    (hfollow : ∀ x, follow x = .ok q → ∃ m, t.walk m x = .ok q)
    (h : t.walkWith follow d [c] = .ok q) : t.Leads d c q := by
  rw [walkWith] at h
  split at h
  · rw [if_neg (by rintro (rfl | rfl) <;> simp [Plain] at hc),
      if_neg (by rintro rfl; simp [Plain] at hc)] at h
    cases hg : t.get (d ++ [c]) with
    | none =>
      rw [hg] at h
      cases h
    | some node =>
      rw [hg] at h
      cases node with
      | link text =>
        dsimp only at h
        rw [List.append_nil] at h
        obtain ⟨m, hm⟩ := hfollow _ h
        exact Or.inl ⟨text, m, hg, hm⟩
      | file content =>
        cases h
        exact Or.inr ⟨_, hg, by simp, rfl⟩
      | dir =>
        cases h
        exact Or.inr ⟨_, hg, by simp, rfl⟩
  · cases h
  · cases h

/-- **The last component** of a path that leads to `q`, where the rest leads to `d`. -/
theorem walk_concat (hc : Plain c) (h : t.walk m (p ++ [c]) = .ok q) (h' : t.walk k p = .ok d) :
    t.Leads d c q := by
  induction m generalizing p k d with
  | zero =>
    have hend : ∀ d, t.walkWith (fun _ => .error .loop) d [c] = .ok q → t.Leads d c q :=
      fun d => walkWith_last hc fun _ h => by cases h
    cases k with
    | zero => exact walkWith_concat (t.Leads · c q) (fun _ _ h _ => by cases h) hend h h'
    | succ k => exact walkWith_concat (t.Leads · c q) (fun _ _ h _ => by cases h) hend h h'
  | succ m ih =>
    have hend : ∀ d, t.walkWith (t.walk m) d [c] = .ok q → t.Leads d c q :=
      fun d => walkWith_last hc fun x hx => ⟨m, hx⟩
    cases k with
    | zero =>
      -- without links left the rest was found without links
      exact walkWith_concat (t.Leads · c q) (fun _ _ _ h => by cases h) hend h h'
    | succ k => exact walkWith_concat (t.Leads · c q) (fun _ _ h h' => ih h h') hend h h'

theorem le_of_erased (h : t'.get = Function.update t.get q none) (p : Path) (node : Node β)
    (hp : t'.get p = some node) : t.get p = some node := by
  by_cases hq : p = q
  · rw [h, hq, Function.update_self] at hp
    cases hp
  · rwa [h, Function.update_of_ne hq] at hp

theorem openCreate_unlinked {blank : β} {n : Nat} (hdir : t.get d = some .dir)
    (hget : t'.get = Function.update t.get (d ++ [c]) none) (hwalk : ∃ m, t.walk m p = .ok d)
    (h : t'.openCreate blank n p = .ok t'') : t'' = t' ∨
      t''.get = Function.update t'.get (d ++ [c]) (some (.file blank)) ∧
        ∃ text, t.get (d ++ [c]) = some (.link text) := by
  have hleads : ∀ {p : List String} {s : t'.Slot}, t'.locate p = .ok s →
      (∃ m, t.walk m p = .ok d) → t.Leads s.dir s.name d := by
    rintro p s hs ⟨m, hm⟩
    obtain ⟨hp, hres⟩ := locate_ok hs
    rw [hp] at hm
    exact walk_concat s.plain hm (walk_mono (le_of_erased hget) _ hres)
  fun_induction openCreate t' blank n p with
  | case1 => cases h
  | case2 n p s hs hnone =>
    cases h
    have hpath : s.path = d ++ [c] ∧ ∃ text, t.get s.path = some (.link text) := by
      obtain ⟨text, -, htext, -⟩ | ⟨node, hnode, -, hd⟩ := hleads hs hwalk
      · refine ⟨?_, text, htext⟩
        by_contra hne
        rw [hget, Function.update_of_ne hne] at hnone
        cases hnone.symm.trans htext
      · -- the directory itself is still there
        have hd : d = s.path := hd
        rw [← hd, hget, Function.update_of_ne (by simp), hdir] at hnone
        cases hnone
    rw [← hpath.1]
    exact Or.inr ⟨get_put _ _, hpath.2⟩
  | case3 p s hs hsome text n hlink ih =>
    refine ih ?_ h
    have hlink' := le_of_erased hget _ _ hlink
    obtain ⟨text', m, htext, hm⟩ | ⟨node, hnode, hne, -⟩ := hleads hs hwalk
    · cases hlink'.symm.trans htext
      exact ⟨m, hm⟩
    · cases hlink'.symm.trans hnode
      exact absurd rfl (hne text)
  | case4 => cases h
  | case5 => cases h
  | case6 => exact Or.inl (Except.ok.inj h).symm
  | case7 => exact Or.inl (Except.ok.inj h).symm

/-- **`touch` of the directory** in which an entry was removed. -/
theorem touch_unlinked {blank : β} (hdir : t.get d = some .dir) (hres : t.resolve p = .ok d)
    (hget : t'.get = Function.update t.get (d ++ [c]) none) (h : t'.touch blank p = .ok t'') :
    t'' = t' ∨ t''.get = Function.update t'.get (d ++ [c]) (some (.file blank)) ∧
      ∃ text, t.get (d ++ [c]) = some (.link text) := by
  rw [touch] at h
  split at h
  · exact Or.inl (Except.ok.inj h).symm
  · exact openCreate_unlinked hdir hget ⟨_, hres⟩ h

end Tree

end Files
