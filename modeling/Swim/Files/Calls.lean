import Swim.Files.Tree
import Swim.Transition.Raise

/-!
# Swim.Files.Calls

How the system finds what a path names, and the calls that change a tree.

A path given to a call is a list of components from the root; besides names, "..", "." and "" may
be among them, and links are followed on the way.

* `walk`, `resolve` — follow a path to what is there, through at most `maxLinks` links.
* `locate` — the slot a path names, when its last component is not followed.
* `mkdir`, `symlink`, `unlink`, `rename`, `mkstemp`, `stat`, `touch`, `listdir` — the calls; a call
  that fails says why and changes nothing.
* `unlink_cases` and its like — what a call does at a path with no links on it.
* `Quiet` — a call that makes neither directories nor links.
* `foldlM_update` — a loop of calls, each at a place of its own.
-/

namespace Files

/-- `value` is no error of the system: the path was never handed to it. -/
inductive OSError where
  | notFound
  | fileExists
  | notDir
  | isDir
  | loop
  | busy
  | value
  deriving DecidableEq

/-- The components of a text, and whether it starts at the root. -/
def components (text : String) : List String := (text.toList.splitOn '/').map String.ofList

def isAbsolute (text : String) : Bool := text.toList.head? == some '/'

/-- Followed links on the way to one file. -/
def maxLinks : Nat := 40

namespace Tree

variable {β : Type}

def target (dir : Path) (text : String) : List String :=
  (if isAbsolute text then [] else dir) ++ components text

/-- The components one after the other, as long as there are no links; `follow` goes on from the
root with the components there are then. -/
def walkWith (t : Tree β) (follow : List String → Except OSError Path) :
    Path → List String → Except OSError Path
  | here, [] => .ok here
  | here, c :: rest =>
    match t.get here with
    | some .dir =>
      if c = "" ∨ c = "." then walkWith t follow here rest
      else if c = ".." then walkWith t follow here.dropLast rest
      else
        match t.get (here ++ [c]) with
        | none => .error .notFound
        | some (.link text) => follow (target here text ++ rest)
        | some _ => walkWith t follow (here ++ [c]) rest
    | some _ => .error .notDir
    | none => .error .notFound

def walk (t : Tree β) : Nat → List String → Except OSError Path
  | 0 => t.walkWith (fun _ => .error .loop) []
  | n + 1 => t.walkWith (walk t n) []

/-- The path of what is there, without links. -/
def resolve (t : Tree β) (p : List String) : Except OSError Path := t.walk maxLinks p

/-- The slot a path names. -/
def locate (t : Tree β) (p : List String) : Except OSError t.Slot :=
  if p.any fun c => c.toList.contains (Char.ofNat 0) then .error .value
  else
    match p.getLast? with
    | none => .error .busy
    | some name =>
      match t.resolve p.dropLast with
      | .error e => .error e
      | .ok dir =>
        if hd : t.get dir = some .dir then
          if hn : Plain name then .ok ⟨dir, name, hd, hn⟩ else .error .busy
        else .error .notDir

/-! ## The calls -/

def mkdir (t : Tree β) (p : List String) : Except OSError (Tree β) :=
  match t.locate p with
  | .error e => .error e
  | .ok s =>
    if h : t.get s.path = none then .ok (t.put s .dir (by rw [h]; nofun)) else .error .fileExists

def symlink (t : Tree β) (text : String) (p : List String) : Except OSError (Tree β) :=
  match t.locate p with
  | .error e => .error e
  | .ok s =>
    if h : t.get s.path = none then .ok (t.put s (.link text) (by rw [h]; nofun))
    else .error .fileExists

def unlink (t : Tree β) (p : List String) : Except OSError (Tree β) :=
  match t.locate p with
  | .error e => .error e
  | .ok s =>
    if t.get s.path = none then .error .notFound
    else if h : t.get s.path = some .dir then .error .isDir
    else .ok (t.erase s.path h)

/-- A new file of a name that is not taken. -/
def mkstemp (t : Tree β) (content : β) (p : List String) : Except OSError (Tree β) :=
  match t.locate p with
  | .error e => .error e
  | .ok s =>
    if h : t.get s.path = none then .ok (t.put s (.file content) (by rw [h]; nofun))
    else .error .fileExists

/-- A file or a link is moved, over what is at the other path; directories are not moved. -/
def rename (t : Tree β) (p q : List String) : Except OSError (Tree β) :=
  match t.locate p, t.locate q with
  | .error e, _ | .ok _, .error e => .error e
  | .ok s, .ok s' =>
    match t.get s.path with
    | none => .error .notFound
    | some node =>
      if hs : t.get s.path = some .dir then .error .isDir
      else if he : s.path = s'.path then .ok t
      else if h : t.get s'.path = some .dir then .error .isDir
      else
        .ok ((t.put s' node h).erase s.path (by
          rw [get_put, Function.update_of_ne he]
          exact hs))

/-- What is there, links followed. -/
def stat (t : Tree β) (p : List String) : Option (Node β) :=
  match t.resolve p with
  | .ok q => t.get q
  | .error _ => none

/-- `os.open` with `O_CREAT`: a file is created where there is nothing, also at the end of links. -/
def openCreate (t : Tree β) (blank : β) : Nat → List String → Except OSError (Tree β)
  | n, p =>
    match t.locate p with
    | .error e => .error e
    | .ok s =>
      if h : t.get s.path = none then .ok (t.put s (.file blank) (by rw [h]; nofun))
      else
        match t.get s.path, n with
        | some (.link text), n + 1 => openCreate t blank n (target s.dir text)
        | some (.link _), 0 => .error .loop
        | some .dir, _ => .error .isDir
        | some (.file _), _ | none, _ => .ok t

/-- Times are not part of a tree: what is there is left as it is. -/
def touch (t : Tree β) (blank : β) (p : List String) : Except OSError (Tree β) :=
  match t.resolve p with
  | .ok _ => .ok t
  | .error _ => t.openCreate blank maxLinks p

def listdir (t : Tree β) (p : List String) : Except OSError (List String) :=
  match t.resolve p with
  | .error e => .error e
  | .ok q => if t.get q = some .dir then .ok (t.entries q) else .error .notDir

/-! ## Paths without links -/

section Real

variable {t t' : Tree β} {follow : List String → Except OSError Path} {here rest : Path}
  {dir : Path} {name : String} {node : Node β}

theorem walkWith_append (h : t.get (here ++ rest) = some node) (hl : ∀ text, node ≠ .link text)
    (more : List String) :
    t.walkWith follow here (rest ++ more) = t.walkWith follow (here ++ rest) more := by
  induction rest generalizing here with
  | nil => rw [List.nil_append, List.append_nil]
  | cons c rest ih =>
    have hplain : Plain c := plain_of_get h c (by simp)
    have hhere : t.get here = some .dir := get_prefix h (by simp)
    have hassoc : here ++ c :: rest = (here ++ [c]) ++ rest := by simp
    rw [hassoc] at h ⊢
    -- the next entry is on the way, or is what is there
    have hnext : ∃ next, t.get (here ++ [c]) = some next ∧ ∀ text, next ≠ .link text := by
      by_cases hnil : rest = []
      · subst hnil
        rw [List.append_nil] at h
        exact ⟨node, h, hl⟩
      · exact ⟨.dir, get_prefix h hnil, nofun⟩
    obtain ⟨next, hnext, hnl⟩ := hnext
    rw [List.cons_append, walkWith, hhere]
    dsimp only
    rw [if_neg (by rintro (rfl | rfl) <;> simp [Plain] at hplain),
      if_neg (by rintro rfl; simp [Plain] at hplain), hnext]
    cases next with
    | link text => exact absurd rfl (hnl text)
    | file content => exact ih h
    | dir => exact ih h

theorem resolve_real {p : Path} (h : t.get p = some node) (hl : ∀ text, node ≠ .link text) :
    t.resolve p = .ok p := by
  have hwalk := @walkWith_append β t (t.walk 39) [] p node h hl []
  rw [List.append_nil] at hwalk
  exact hwalk

theorem touch_real {blank : β} {p : Path} (h : t.get p = some node)
    (hl : ∀ text, node ≠ .link text) : t.touch blank p = .ok t := by
  rw [touch, resolve_real h hl]

theorem listdir_dir {p : Path} (h : t.get p = some .dir) : t.listdir p = .ok (t.entries p) := by
  rw [listdir, resolve_real h nofun]
  exact if_pos h

theorem resolve_missing (hd : t.get dir = some .dir) (hn : Plain name)
    (h : t.get (dir ++ [name]) = none) : t.resolve (dir ++ [name]) = .error .notFound := by
  have hwalk := @walkWith_append β t (t.walk 39) [] dir .dir hd nofun [name]
  refine hwalk.trans ?_
  rw [List.nil_append, walkWith, hd]
  dsimp only
  rw [if_neg (by rintro (rfl | rfl) <;> simp [Plain] at hn),
    if_neg (by rintro rfl; simp [Plain] at hn), h]

theorem not_nul {p : Path} (h : ∀ name ∈ p, Plain name) :
    ¬ (p.any fun c => c.toList.contains (Char.ofNat 0)) = true := by
  rw [List.any_eq_true]
  rintro ⟨c, hc, hnul⟩
  exact (h c hc).2.2.2.2 (by simpa using hnul)

theorem locate_entry (hd : t.get dir = some .dir) (hn : Plain name) :
    t.locate (dir ++ [name]) = .ok ⟨dir, name, hd, hn⟩ := by
  have hplain : ∀ c ∈ dir ++ [name], Plain c := (⟨dir, name, hd, hn⟩ : t.Slot).plain_path
  rw [locate, if_neg (not_nul hplain)]
  simp only [List.getLast?_concat, List.dropLast_concat, resolve_real hd nofun, dif_pos hd,
    dif_pos hn]

theorem locate_child {sub : String} (hd : t.get dir = some .dir) (hsub : Plain sub)
    (hn : Plain name) (hl : ∀ text, t.get (dir ++ [sub]) ≠ some (.link text)) :
    t.get (dir ++ [sub]) = some .dir ∨
      t.get (dir ++ [sub]) = none ∧ t.locate (dir ++ [sub] ++ [name]) = .error .notFound ∨
        t.locate (dir ++ [sub] ++ [name]) = .error .notDir := by
  have hplain : ∀ c ∈ dir ++ [sub] ++ [name], Plain c := by
    intro c hc
    obtain hc | hc := List.mem_append.mp hc
    · exact (⟨dir, sub, hd, hsub⟩ : t.Slot).plain_path c hc
    · rw [List.mem_singleton.mp hc]; exact hn
  have hlast : (dir ++ [sub] ++ [name]).getLast? = some name := List.getLast?_concat
  have hinit : (dir ++ [sub] ++ [name]).dropLast = dir ++ [sub] := List.dropLast_concat
  cases hg : t.get (dir ++ [sub]) with
  | none =>
    refine Or.inr (Or.inl ⟨rfl, ?_⟩)
    rw [locate, if_neg (not_nul hplain), hlast, hinit]
    simp only [resolve_missing hd hsub hg]
  | some node =>
    cases node with
    | dir => exact Or.inl rfl
    | link text => exact absurd hg (hl text)
    | file content =>
      refine Or.inr (Or.inr ?_)
      rw [locate, if_neg (not_nul hplain), hlast, hinit]
      simp only [resolve_real hg nofun]
      exact dif_neg (by simp [hg])

theorem mkdir_cases (hd : t.get dir = some .dir) (hn : Plain name) :
    (t.get (dir ++ [name]) ≠ none ∧ t.mkdir (dir ++ [name]) = .error .fileExists) ∨
      t.get (dir ++ [name]) = none ∧ ∃ t', t.mkdir (dir ++ [name]) = .ok t' ∧
        t'.get = Function.update t.get (dir ++ [name]) (some .dir) := by
  rw [mkdir, locate_entry hd hn]
  by_cases h : t.get (dir ++ [name]) = none
  · exact Or.inr ⟨h, _, dif_pos h, get_put _ _⟩
  · exact Or.inl ⟨h, dif_neg h⟩

theorem symlink_cases (hd : t.get dir = some .dir) (hn : Plain name) (text : String) :
    (t.get (dir ++ [name]) ≠ none ∧ t.symlink text (dir ++ [name]) = .error .fileExists) ∨
      t.get (dir ++ [name]) = none ∧ ∃ t', t.symlink text (dir ++ [name]) = .ok t' ∧
        t'.get = Function.update t.get (dir ++ [name]) (some (.link text)) := by
  rw [symlink, locate_entry hd hn]
  by_cases h : t.get (dir ++ [name]) = none
  · exact Or.inr ⟨h, _, dif_pos h, get_put _ _⟩
  · exact Or.inl ⟨h, dif_neg h⟩

theorem unlink_cases (hd : t.get dir = some .dir) (hn : Plain name) :
    (t.get (dir ++ [name]) = none ∧ t.unlink (dir ++ [name]) = .error .notFound) ∨
      t.unlink (dir ++ [name]) = .error .isDir ∨ ∃ t', t.unlink (dir ++ [name]) = .ok t' ∧
        t'.get = Function.update t.get (dir ++ [name]) none := by
  rw [unlink, locate_entry hd hn]
  by_cases h : t.get (dir ++ [name]) = none
  · exact Or.inl ⟨h, if_pos h⟩
  · by_cases hdir : t.get (dir ++ [name]) = some .dir
    · exact Or.inr (Or.inl ((if_neg h).trans (dif_pos hdir)))
    · exact Or.inr (Or.inr ⟨_, (if_neg h).trans (dif_neg hdir), get_erase hdir⟩)

/-! ## A file made elsewhere and moved into place -/

/-- What is found stays found when entries are added. -/
theorem walkWith_mono {follow' : List String → Except OSError Path}
    (hle : ∀ p node, t.get p = some node → t'.get p = some node)
    (hfollow : ∀ p q, follow p = .ok q → follow' p = .ok q) {q : Path}
    (h : t.walkWith follow here rest = .ok q) : t'.walkWith follow' here rest = .ok q := by
  induction rest generalizing here with
  | nil => exact h
  | cons c rest ih =>
    rw [walkWith] at h ⊢
    cases hg : t.get here with
    | none => rw [hg] at h; cases h
    | some node =>
      rw [hg] at h
      rw [hle here node hg]
      cases node with
      | file content => cases h
      | link text => cases h
      | dir =>
        dsimp only at h ⊢
        split at h
        · rename_i hc
          rw [if_pos hc]; exact ih h
        · rename_i hc
          rw [if_neg hc]
          split at h
          · rename_i hup
            rw [if_pos hup]; exact ih h
          · rename_i hup
            rw [if_neg hup]
            cases hg' : t.get (here ++ [c]) with
            | none => rw [hg'] at h; cases h
            | some next =>
              rw [hg'] at h
              rw [hle _ next hg']
              cases next with
              | link text => exact hfollow _ _ h
              | file content => exact ih h
              | dir => exact ih h

theorem walk_mono (hle : ∀ p node, t.get p = some node → t'.get p = some node) (n : Nat)
    {p : List String} {q : Path} (h : t.walk n p = .ok q) : t'.walk n p = .ok q := by
  induction n generalizing p q with
  | zero => exact walkWith_mono hle (fun _ _ h => h) h
  | succ n ih => exact walkWith_mono hle (fun _ _ h => ih h) h

theorem locate_mono (hle : ∀ p node, t.get p = some node → t'.get p = some node)
    {p : List String} {s : t.Slot} (h : t.locate p = .ok s) :
    ∃ s' : t'.Slot, t'.locate p = .ok s' ∧ s'.path = s.path := by
  unfold locate at h
  split at h
  · cases h
  · rename_i hnul
    split at h
    · cases h
    · rename_i name hlast
      split at h
      · cases h
      · rename_i q hq
        split at h
        · rename_i hd
          split at h
          · rename_i hn
            cases h
            refine ⟨⟨q, name, hle q _ hd, hn⟩, ?_, rfl⟩
            rw [locate, if_neg hnul]
            have hq' : t'.resolve p.dropLast = .ok q := walk_mono hle _ hq
            simp only [hlast, hq', dif_pos hn, dif_pos (hle q _ hd)]
          · cases h
        · cases h

theorem mkstemp_ok {content : β} {p : List String} (h : t.mkstemp content p = .ok t') :
    ∃ s : t.Slot, t.locate p = .ok s ∧ t.get s.path = none ∧
      t'.get = Function.update t.get s.path (some (.file content)) := by
  rw [mkstemp] at h
  split at h
  · cases h
  · rename_i s hs
    split at h
    · rename_i hnone
      cases h
      exact ⟨s, hs, hnone, get_put _ _⟩
    · cases h

theorem rename_file {content : β} {p q : List String} {s s' : t.Slot} (hs : t.locate p = .ok s)
    (hs' : t.locate q = .ok s') (hfile : t.get s.path = some (.file content))
    (h : t.rename p q = .ok t') :
    t'.get = Function.update (Function.update t.get s.path none) s'.path
      (some (.file content)) := by
  have hnd : t.get s.path ≠ some .dir := by simp [hfile]
  unfold rename at h
  simp only [hs, hs'] at h
  split at h
  · cases h
  · rename_i node hnode
    cases hfile.symm.trans hnode
    rw [dif_neg hnd] at h
    split at h
    · rename_i heq
      cases h
      rw [← heq, Function.update_idem, ← hfile, Function.update_eq_self]
    · rename_i hne
      split at h
      · cases h
      · cases h
        rw [get_erase, get_put, Function.update_comm hne]

/-- **A file moved into place** after it was made under a name of its own. -/
theorem replace_ok {content : β} {p q : List String} {t'' : Tree β}
    (hnew : t.mkstemp content p = .ok t') (hmove : t'.rename p q = .ok t'') :
    ∃ s : t'.Slot, t'.locate q = .ok s ∧
      t''.get = Function.update t.get s.path (some (.file content)) := by
  obtain ⟨s₀, hs₀, hnone, hget⟩ := mkstemp_ok hnew
  have hle : ∀ p node, t.get p = some node → t'.get p = some node := by
    intro p node hp
    have hne : p ≠ s₀.path := by
      rintro rfl
      rw [hnone] at hp; cases hp
    rw [hget, Function.update_of_ne hne, hp]
  obtain ⟨s₁, hs₁, hpath⟩ := locate_mono hle hs₀
  have hmade : t'.get s₁.path = some (.file content) := by rw [hpath, hget, Function.update_self]
  cases hq : t'.locate q with
  | error e =>
    rw [rename, hs₁, hq] at hmove
    cases hmove
  | ok s =>
    refine ⟨s, rfl, ?_⟩
    rw [rename_file hs₁ hq hmade hmove, hpath, hget, Function.update_idem, ← hnone,
      Function.update_eq_self]

theorem replace_entry {content : β} {p : List String} {t'' : Tree β} (hd : t.get dir = some .dir)
    (hn : Plain name) (hnew : t.mkstemp content p = .ok t')
    (hmove : t'.rename p (dir ++ [name]) = .ok t'') :
    t''.get = Function.update t.get (dir ++ [name]) (some (.file content)) := by
  obtain ⟨s₀, -, hnone, hget⟩ := mkstemp_ok hnew
  have hd' : t'.get dir = some .dir := by
    have hne : dir ≠ s₀.path := by
      rintro rfl
      rw [hnone] at hd; cases hd
    rw [hget, Function.update_of_ne hne, hd]
  obtain ⟨s, hs, hfinal⟩ := replace_ok hnew hmove
  rw [locate_entry hd' hn] at hs
  cases hs
  exact hfinal

end Real

/-! ## Calls that make no directories and no links -/

section Quiet

variable {t t' t'' : Tree β}

def Quiet (t t' : Tree β) : Prop :=
  ∀ p node, (∀ content, node ≠ .file content) → t'.get p = some node → t.get p = some node

theorem Quiet.refl (t : Tree β) : t.Quiet t := fun _ _ _ h => h

theorem Quiet.trans (h : t.Quiet t') (h' : t'.Quiet t'') : t.Quiet t'' :=
  fun p node hf hp => h p node hf (h' p node hf hp)

theorem Quiet.isDir {p : Path} (h : t.Quiet t') (hp : t'.get p = some .dir) :
    t.get p = some .dir :=
  h p _ nofun hp

theorem quiet_update {p : Path} {o : Option (Node β)} (h : t'.get = Function.update t.get p o)
    (ho : ∀ node, o = some node → ∃ content, node = .file content) : t.Quiet t' := by
  intro q node hf hq
  rw [h] at hq
  by_cases hp : q = p
  · rw [hp, Function.update_self] at hq
    obtain ⟨content, rfl⟩ := ho node hq
    exact absurd rfl (hf content)
  · rwa [Function.update_of_ne hp] at hq

theorem quiet_unlink {p : List String} (h : t.unlink p = .ok t') : t.Quiet t' := by
  unfold unlink at h
  split at h
  · cases h
  · split at h
    · cases h
    · split at h
      · cases h
      · cases h
        exact quiet_update (get_erase _) nofun

theorem quiet_replace {content : β} {p q : List String} (hnew : t.mkstemp content p = .ok t')
    (hmove : t'.rename p q = .ok t'') : t.Quiet t'' := by
  obtain ⟨s, -, hget⟩ := replace_ok hnew hmove
  exact quiet_update hget fun node hnode => ⟨content, (Option.some.inj hnode).symm⟩

theorem quiet_openCreate {blank : β} {n : Nat} {p : List String}
    (h : t.openCreate blank n p = .ok t') : t.Quiet t' := by
  fun_induction openCreate t blank n p with
  | case1 => cases h
  | case2 n p s hs hnone =>
    cases h
    exact quiet_update (get_put _ _) fun node hnode => ⟨blank, (Option.some.inj hnode).symm⟩
  | case3 p s hs hsome text n hlink ih => exact ih h
  | case4 => cases h
  | case5 => cases h
  | case6 => cases h; exact .refl t
  | case7 => cases h; exact .refl t

theorem quiet_touch {blank : β} {p : List String} (h : t.touch blank p = .ok t') : t.Quiet t' := by
  unfold touch at h
  split at h
  · cases h; exact .refl t
  · exact quiet_openCreate h

end Quiet

end Tree

/-! ## Folds of calls -/

/-- Each call changes the entry at a place of its own, as long as `I` holds: afterwards each such
entry is changed, and no other. -/
theorem foldlM_update {ε α β : Type} {f : Tree β → α → Except ε (Tree β)} (loc : α → Path)
    (val : α → Option (Node β) → Option (Node β)) (I : Tree β → Prop) {l : List α}
    {t t' : Tree β} (hnodup : (l.map loc).Nodup)
    (hstep : ∀ t t', ∀ x ∈ l, I t → f t x = .ok t' →
      I t' ∧ t'.get = Function.update t.get (loc x) (val x (t.get (loc x))))
    (hI : I t) (h : l.foldlM f t = .ok t') :
    I t' ∧ (∀ p, (∀ x ∈ l, p ≠ loc x) → t'.get p = t.get p) ∧
      ∀ x ∈ l, t'.get (loc x) = val x (t.get (loc x)) := by
  induction l generalizing t with
  | nil =>
    cases h
    exact ⟨hI, fun _ _ => rfl, nofun⟩
  | cons x l ih =>
    obtain ⟨t₁, ht₁, hrest⟩ := Transition.foldlM_cons_ok.mp h
    rw [List.map_cons, List.nodup_cons] at hnodup
    obtain ⟨hnew, hnodup⟩ := hnodup
    obtain ⟨hI₁, hget₁⟩ := hstep t t₁ x List.mem_cons_self hI ht₁
    obtain ⟨hI', hoff, hon⟩ := ih hnodup
      (fun t t' y hy => hstep t t' y (List.mem_cons_of_mem _ hy)) hI₁ hrest
    have hne : ∀ y ∈ l, loc x ≠ loc y := fun y hy heq =>
      hnew (List.mem_map.mpr ⟨y, hy, heq.symm⟩)
    refine ⟨hI', fun p hp => ?_, fun y hy => ?_⟩
    · rw [hoff p fun y hy => hp y (List.mem_cons_of_mem _ hy), hget₁,
        Function.update_of_ne (hp x List.mem_cons_self)]
    · obtain rfl | hy := List.mem_cons.mp hy
      · rw [hoff _ hne, hget₁, Function.update_self]
      · rw [hon y hy, hget₁, Function.update_of_ne (hne y hy).symm]

end Files
