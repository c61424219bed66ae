import EVdeSwitch.Utils.CanonicalNames

/-!
# PathResolution — `vde_realpath` goes where the path leads

The system calls describe a tree, and in this tree a path leads somewhere.  As long as no symbolic
link has a target that is longer than a path may be, `vde_realpath` stays inside of its buffers and
either finds that place or fails where the path leads nowhere or is too long.
-/

namespace EVdeSwitch
namespace Utils

open EVdeSwitch.Lib

/-- What there is under the names; a name that is too long is not there. -/
def FileSystem.tree (fs : FileSystem) (names : List CString) : Option (PathNode CString) :=
  if PATH_MAX ≤ (render names).length then
    none
  else
    match fs.lstat (render names) with
    | .error _ => none
    | .ok .link =>
        match fs.readlink (render names) with
        | .error _ => none
        | .ok target => some (.link (pathText target))
    | .ok .directory => some (.directory (fs.access (render names)))
    | .ok .other => some .leaf

/-- The working directory has a canonical name, and what a link holds fits into a path. -/
structure FileSystem.Lawful (fs : FileSystem) : Prop where
  shortLinks : ∀ path target, fs.readlink path = .ok target → target.length < PATH_MAX
  cwd_canonical : ∀ cwd, fs.getcwd = .ok cwd → ∃ dir, ValidNames dir ∧ cwd = render dir

/-- There is a symbolic link under the names, which holds `target`. -/
structure FileSystem.LinksTo (fs : FileSystem) (names : List CString) (target : CString) :
    Prop where
  short : (render names).length < PATH_MAX
  link : fs.lstat (render names) = .ok .link
  target_eq : fs.readlink (render names) = .ok target

/-- The path begins with the name `comp`, and `rest` is what comes after it. -/
structure StartsWith (start comp rest : CString) : Prop where
  comp_eq : component (skipSlashes start) = comp
  rest_eq : afterComponent (skipSlashes start) = rest
  valid : ValidName comp

/-- Where the path `start` leads to from `dir`, over `links` symbolic links. -/
def LeadsTo (fs : FileSystem) (links : Nat) (dir : List CString) (start : CString)
    (names : List CString) : Prop :=
  Walks fs.tree links dir (stepsOf start) (endsInSlash start) names

/-- On the way of the path `start` from `dir`, the link number `links` is one that is too long for
what comes after it: what it holds and the rest of the path do not fit into a buffer together. -/
inductive Overlong (fs : FileSystem) : Nat → List CString → CString → Prop
  | here {dir : List CString} {start comp rest target : CString} :
      StartsWith start comp rest → fs.LinksTo (dir ++ [comp]) target →
        PATH_MAX ≤ target.length + rest.length → Overlong fs 1 dir start
  | stay {links : Nat} {dir : List CString} {start : CString} :
      component (skipSlashes start) = [DOT] →
        Overlong fs links dir (afterComponent (skipSlashes start)) → Overlong fs links dir start
  | up {links : Nat} {dir : List CString} {start : CString} :
      component (skipSlashes start) = [DOT, DOT] →
        Overlong fs links dir.dropLast (afterComponent (skipSlashes start)) →
          Overlong fs links dir start
  | enter {links : Nat} {dir : List CString} {start comp rest : CString} {searchable : Bool} :
      StartsWith start comp rest → fs.tree (dir ++ [comp]) = some (.directory searchable) →
        Overlong fs links (dir ++ [comp]) rest → Overlong fs links dir start
  | follow {links : Nat} {dir : List CString} {start comp rest target : CString} :
      StartsWith start comp rest → fs.LinksTo (dir ++ [comp]) target →
        Overlong fs links (if (pathText target).absolute then [] else dir) (target ++ rest) →
          Overlong fs (links + 1) dir start

/-- The answer about the path `start` from the directory `dir` on, after `num_links` links. -/
inductive Answers (fs : FileSystem) (num_links : Nat) (dir : List CString) (start : CString) :
    Resolution → Prop
  | found {links : Nat} {names : List CString} :
      num_links + links ≤ MAXSYMLINKS → LeadsTo fs links dir start names →
        Answers fs num_links dir start (.found (render names))
  | failed {errno : Errno} {resolved : Option CString} :
      (∀ links names, LeadsTo fs links dir start names →
        errno = .ELOOP ∧ MAXSYMLINKS < num_links + links ∨
          errno = .ENAMETOOLONG ∧ ∃ more, 0 < more ∧ more ≤ links ∧
            num_links + more ≤ MAXSYMLINKS ∧ Overlong fs more dir start) →
        Answers fs num_links dir start (.failed errno resolved)

/-! ## One component -/

section OneComponent

variable {fs : FileSystem} {resolved comp rest : CString} {dir : List CString}

/-- What `visit` finds out about the names. -/
inductive Visits (fs : FileSystem) (names : List CString) (rest : CString) : Visited → Prop
  | directory {searchable : Bool} :
      fs.tree names = some (.directory searchable) →
        (rest.head? = some SLASH → searchable = true) → (render names).length < PATH_MAX →
          Visits fs names rest (.next (render names))
  | leaf :
      fs.tree names = some .leaf → rest.head? ≠ some SLASH → (render names).length < PATH_MAX →
        Visits fs names rest (.next (render names))
  | link :
      fs.lstat (render names) = .ok .link → (render names).length < PATH_MAX →
        Visits fs names rest (.link (render names))
  | lost {errno : Errno} {resolved : CString} :
      (∀ node, fs.tree names = some node →
        rest.head? = some SLASH ∧ (node = .leaf ∨ node = .directory false)) →
          Visits fs names rest (.abort errno resolved)

theorem tree_of_long (h : PATH_MAX ≤ (render dir).length) : fs.tree dir = none :=
  if_pos h

theorem tree_of_short (h : (render dir).length < PATH_MAX) :
    fs.tree dir =
      match fs.lstat (render dir) with
      | .error _ => none
      | .ok .link =>
          match fs.readlink (render dir) with
          | .error _ => none
          | .ok target => some (.link (pathText target))
      | .ok .directory => some (.directory (fs.access (render dir)))
      | .ok .other => some .leaf :=
  if_neg (Nat.not_le.2 h)

theorem FileSystem.LinksTo.tree {names : List CString} {target : CString}
    (h : fs.LinksTo names target) : fs.tree names = some (.link (pathText target)) := by
  have htree : fs.tree names = _ := tree_of_short h.short
  simpa only [h.link, h.target_eq] using htree

/-- The buffer has room for the name behind a directory exactly if the name is not too long. -/
theorem visit_visits (h : Stands resolved dir) (hdir : ValidNames dir)
    (hroom : resolved.length < PATH_MAX) (comp rest : CString) :
    ∃ visited, visit fs resolved comp rest = .ok visited ∧
      Visits fs (dir ++ [comp]) rest visited := by
  have hput := putSlash_stands h hdir hroom
  have hbuffer : (joined dir ++ [SLASH]) ++ comp = render (dir ++ [comp]) := by
    rw [render_concat, List.append_assoc]
    rfl
  have hlength : (joined dir ++ [SLASH]).length + comp.length =
      (render (dir ++ [comp])).length := by
    rw [← hbuffer, ← List.length_append]
  simp only [visit, hput, Except.bind, hlength, hbuffer]
  by_cases hlong : PATH_MAX ≤ (render (dir ++ [comp])).length
  · rw [if_pos hlong]
    rcases cutLast_slash h hroom with ⟨cut, hcut⟩
    rw [hcut]
    refine ⟨_, rfl, Visits.lost fun node hnode => ?_⟩
    rw [tree_of_long hlong] at hnode
    cases hnode
  · rw [if_neg hlong]
    have hshort : (render (dir ++ [comp])).length < PATH_MAX := Nat.not_le.1 hlong
    have htree : fs.tree (dir ++ [comp]) = _ := tree_of_short hshort
    cases hmode : fs.lstat (render (dir ++ [comp])) with
    | error errno =>
        refine ⟨_, rfl, Visits.lost fun node hnode => ?_⟩
        rw [htree, hmode] at hnode
        cases hnode
    | ok mode =>
        rw [hmode] at htree
        cases mode with
        | link => exact ⟨_, rfl, Visits.link hmode hshort⟩
        | directory =>
            by_cases hhead : rest.head? = some SLASH
            · cases haccess : fs.access (render (dir ++ [comp])) with
              | true =>
                  refine ⟨_, by simp [hhead], Visits.directory htree (fun _ => haccess) hshort⟩
              | false =>
                  refine ⟨.abort .EACCES (render (dir ++ [comp])), by simp [hhead],
                    Visits.lost fun node hnode => ?_⟩
                  rw [htree, haccess] at hnode
                  exact ⟨hhead, Or.inr (Option.some.inj hnode).symm⟩
            · exact ⟨_, by simp [hhead],
                Visits.directory htree (fun hslash => absurd hslash hhead) hshort⟩
        | other =>
            by_cases hhead : rest.head? = some SLASH
            · refine ⟨.abort .ENOTDIR (render (dir ++ [comp])), by simp [hhead],
                Visits.lost fun node hnode => ?_⟩
              rw [htree] at hnode
              exact ⟨hhead, Or.inl (Option.some.inj hnode).symm⟩
            · exact ⟨_, by simp [hhead], Visits.leaf htree hhead hshort⟩

theorem Visits.next_stands {names : List CString} (h : Visits fs names rest (.next resolved)) :
    Stands resolved names ∧ resolved.length < PATH_MAX := by
  cases h with
  | directory _ _ hshort => exact ⟨stands_render _, hshort⟩
  | leaf _ _ hshort => exact ⟨stands_render _, hshort⟩

/-- What becomes of a link under the name `comp` in `dir`. -/
inductive Follows (fs : FileSystem) (dir : List CString) (comp rest : CString) : Followed → Prop
  | restart {resolved target : CString} :
      fs.LinksTo (dir ++ [comp]) target →
        Stands resolved (if (pathText target).absolute then [] else dir) →
          resolved.length < PATH_MAX → Follows fs dir comp rest (.restart resolved (target ++ rest))
  | lost {errno : Errno} {resolved : CString} :
      fs.tree (dir ++ [comp]) = none → Follows fs dir comp rest (.abort errno resolved)
  | tooLong {resolved target : CString} :
      fs.LinksTo (dir ++ [comp]) target → PATH_MAX ≤ target.length + rest.length →
        Follows fs dir comp rest (.abort .ENAMETOOLONG resolved)

theorem followLink_follows (hfs : fs.Lawful) (hdir : ValidNames (dir ++ [comp]))
    (hlink : fs.lstat (render (dir ++ [comp])) = .ok .link)
    (hshort : (render (dir ++ [comp])).length < PATH_MAX) (rest : CString) :
    ∃ followed, followLink fs (render (dir ++ [comp])) rest = .ok followed ∧
      Follows fs dir comp rest followed := by
  have htree : fs.tree (dir ++ [comp]) = _ := tree_of_short hshort
  rw [hlink] at htree
  rw [followLink]
  cases hread : fs.readlink (render (dir ++ [comp])) with
  | error errno =>
      rw [hread] at htree
      exact ⟨_, rfl, Follows.lost htree⟩
  | ok target =>
      have hlinks : fs.LinksTo (dir ++ [comp]) target := ⟨hshort, hlink, hread⟩
      have hfits : ¬target.length ≥ PATH_MAX := Nat.not_le.2 (hfs.shortLinks _ target hread)
      simp only [if_neg hfits]
      by_cases hspliced : target.length + rest.length ≥ PATH_MAX
      · rw [if_pos hspliced]
        exact ⟨_, rfl, Follows.tooLong hlinks hspliced⟩
      · rw [if_neg hspliced]
        by_cases habsolute : target.head? = some SLASH
        · rw [if_pos habsolute]
          have htext : (pathText target).absolute = true := decide_eq_true habsolute
          refine ⟨_, rfl, Follows.restart hlinks ?_ ?_⟩
          · rw [if_pos htext]
            exact stands_nil.2 (take_render _)
          · rw [take_render]
            decide
        · rw [if_neg habsolute, backUp_stands (stands_render _) hdir, List.dropLast_concat]
          refine ⟨_, rfl, Follows.restart hlinks ?_ ?_⟩
          · rw [if_neg (by simpa [pathText] using habsolute)]
            exact stands_slash dir
          · rw [render_concat] at hshort
            simp only [List.length_append, List.length_cons] at hshort ⊢
            exact Nat.lt_of_le_of_lt (by simp) hshort

end OneComponent

/-! ## The whole path -/

section WholePath

variable {fs : FileSystem} {num_links : Nat} {dir : List CString} {start : CString}
  {answer : Resolution}

/-- An answer about what is left is one about the whole, which leads over `more` further links. -/
theorem Answers.of_iff {more : Nat} {dir' : List CString} {start' : CString}
    (h : Answers fs (num_links + more) dir' start' answer)
    (hleads : ∀ links names, LeadsTo fs links dir start names ↔
      ∃ rest, links = rest + more ∧ LeadsTo fs rest dir' start' names)
    (hlong : ∀ links, Overlong fs links dir' start' → Overlong fs (links + more) dir start) :
    Answers fs num_links dir start answer := by
  cases h with
  | @found links names hlinks hwalk =>
      have hwhole := (hleads (links + more) names).2 ⟨links, rfl, hwalk⟩
      exact Answers.found (by omega) hwhole
  | failed hfails =>
      refine Answers.failed fun links names hwhole => ?_
      rcases (hleads links names).1 hwhole with ⟨rest, rfl, hwalk⟩
      rcases hfails rest names hwalk with ⟨hloop, hmany⟩ | ⟨hlong', links, hpos, hle, hmax, hover⟩
      · exact Or.inl ⟨hloop, by omega⟩
      · exact Or.inr ⟨hlong', links + more, by omega, by omega, by omega, hlong links hover⟩

/-- The same without a link. -/
theorem Answers.of_same {dir' : List CString} {start' : CString}
    (h : Answers fs num_links dir' start' answer)
    (hleads : ∀ links names, LeadsTo fs links dir start names ↔ LeadsTo fs links dir' start' names)
    (hlong : ∀ links, Overlong fs links dir' start' → Overlong fs links dir start) :
    Answers fs num_links dir start answer := by
  have hnone : Answers fs (num_links + 0) dir' start' answer := h
  refine hnone.of_iff (fun links names => (hleads links names).trans ⟨?_, ?_⟩) hlong
  · exact fun hwalk => ⟨links, rfl, hwalk⟩
  · rintro ⟨_, rfl, hwalk⟩
    exact hwalk

/-- On the way of nothing there is no link. -/
theorem not_overlong_nil {links : Nat} : ¬Overlong fs links dir [] := by
  have hcomp : ∀ {comp rest : CString}, ¬StartsWith [] comp rest :=
    fun h => h.valid.ne_nil h.comp_eq.symm
  intro h
  cases h with
  | here hstart _ _ => exact hcomp hstart
  | stay hdot _ => cases hdot
  | up hdots _ => cases hdots
  | enter hstart _ _ => exact hcomp hstart
  | follow hstart _ _ => exact hcomp hstart

theorem Answers.nowhere {errno : Errno} {resolved : Option CString}
    (h : ∀ links names, ¬LeadsTo fs links dir start names) :
    Answers fs num_links dir start (.failed errno resolved) :=
  Answers.failed fun links names hwalk => absurd hwalk (h links names)

/-- The first step of a path. -/
theorem leadsTo_cons (hcomp : component (skipSlashes start) ≠ []) {links : Nat}
    {names : List CString} :
    LeadsTo fs links dir start names ↔
      Walks fs.tree links dir
        (toStep (component (skipSlashes start)) :: stepsOf (afterComponent (skipSlashes start)))
        (endsInSlash (afterComponent (skipSlashes start))) names := by
  rw [LeadsTo, stepsOf_eq_cons hcomp, ← endsInSlash_afterComponent hcomp]

theorem Answers.of_dot (hdot : component (skipSlashes start) = [DOT])
    (h : Answers fs num_links dir (afterComponent (skipSlashes start)) answer) :
    Answers fs num_links dir start answer := by
  have hcomp : component (skipSlashes start) ≠ [] := by
    rw [hdot]
    exact List.cons_ne_nil _ _
  refine h.of_same (fun links names => (leadsTo_cons hcomp).trans ?_) fun _ => Overlong.stay hdot
  rw [hdot]
  exact walks_stay

theorem Answers.of_dots (hdots : component (skipSlashes start) = [DOT, DOT])
    (h : Answers fs num_links dir.dropLast (afterComponent (skipSlashes start)) answer) :
    Answers fs num_links dir start answer := by
  have hcomp : component (skipSlashes start) ≠ [] := by
    rw [hdots]
    exact List.cons_ne_nil _ _
  refine h.of_same (fun links names => (leadsTo_cons hcomp).trans ?_) fun _ => Overlong.up hdots
  rw [hdots]
  exact walks_up

section Name

variable {comp rest : CString} {visited : Visited} {followed : Followed}

theorem StartsWith.atSlash (h : StartsWith start comp rest) : AtSlash rest := by
  rw [← h.rest_eq]
  exact atSlash_afterComponent

theorem StartsWith.leadsTo (h : StartsWith start comp rest) {links : Nat} {names : List CString} :
    LeadsTo fs links dir start names ↔
      Walks fs.tree links dir (.enter comp :: stepsOf rest) (endsInSlash rest) names := by
  have hcomp : component (skipSlashes start) ≠ [] := by
    rw [h.comp_eq]
    exact h.valid.ne_nil
  rw [leadsTo_cons hcomp, h.comp_eq, h.rest_eq, toStep_of_name h.valid.ne_dot h.valid.ne_dots]

theorem Answers.of_next {resolved : CString} (hstart : StartsWith start comp rest)
    (hvisits : Visits fs (dir ++ [comp]) rest (.next resolved))
    (h : Answers fs num_links (dir ++ [comp]) rest answer) :
    Answers fs num_links dir start answer := by
  have hrest := hstart.atSlash
  cases hvisits with
  | directory hnode hsearch _ =>
      refine h.of_same (fun links names => hstart.leadsTo.trans ((walks_directory hnode).trans ?_))
        fun _ => Overlong.enter hstart hnode
      exact and_iff_right fun hmore => hsearch (hrest.head?_iff.2 hmore)
  | leaf hnode hhead _ =>
      have hnil : rest = [] := by
        by_contra hne
        exact hhead (hrest hne)
      subst hnil
      have hends : ∀ links names, LeadsTo fs links (dir ++ [comp]) [] names ↔
          links = 0 ∧ names = dir ++ [comp] := by
        intro links names
        rw [LeadsTo, stepsOf_eq_nil rfl, walks_done]
      refine h.of_same (fun links names => hstart.leadsTo.trans ((walks_leaf hnode).trans ?_)) ?_
      · rw [hends, stepsOf_eq_nil rfl]
        exact ⟨fun ⟨hlinks, _, _, hnames⟩ => ⟨hlinks, hnames⟩,
          fun ⟨hlinks, hnames⟩ => ⟨hlinks, rfl, rfl, hnames⟩⟩
      · -- nothing comes after the name
        exact fun links hover => absurd hover not_overlong_nil

theorem Answers.of_lost {errno : Errno} {resolved : CString} (hstart : StartsWith start comp rest)
    (hvisits : Visits fs (dir ++ [comp]) rest (.abort errno resolved)) :
    Answers fs num_links dir start (.failed errno (some resolved)) := by
  have hrest := hstart.atSlash
  cases hvisits with
  | lost hlost =>
      refine Answers.nowhere fun links names hleads => ?_
      have hwalk := hstart.leadsTo.1 hleads
      rcases hwalk.exists_node with ⟨node, hnode⟩
      rcases hlost node hnode with ⟨hhead, rfl | rfl⟩
      · rcases (walks_leaf hnode).1 hwalk with ⟨_, hsteps, hslash, _⟩
        rcases hrest.head?_iff.1 hhead with hne | htrue
        · exact hne hsteps
        · rw [hslash] at htrue
          cases htrue
      · cases ((walks_directory hnode).1 hwalk).1 (hrest.head?_iff.1 hhead)

theorem StartsWith.leadsTo_link (hstart : StartsWith start comp rest) {target : CString}
    (hlinks : fs.LinksTo (dir ++ [comp]) target) {links : Nat} {names : List CString} :
    LeadsTo fs links dir start names ↔ ∃ more, links = more + 1 ∧
      LeadsTo fs more (if (pathText target).absolute then [] else dir) (target ++ rest) names := by
  have hrest := hstart.atSlash
  have hslash : endsInSlash (target ++ rest) =
      if stepsOf rest = [] ∧ endsInSlash rest = false then (pathText target).slash
      else endsInSlash rest := by
    by_cases hnil : rest = []
    · rw [hnil, List.append_nil]
      exact (if_pos ⟨stepsOf_eq_nil rfl, rfl⟩).symm
    · rw [endsInSlash_append hnil, if_neg]
      rintro ⟨hsteps, hfalse⟩
      rcases hrest.head?_iff.1 (hrest hnil) with hne | htrue
      · exact hne hsteps
      · rw [hfalse] at htrue
        cases htrue
  have hspliced : ∀ more, LeadsTo fs more (if (pathText target).absolute then [] else dir)
      (target ++ rest) names ↔ Walks fs.tree more
        (if (pathText target).absolute then [] else dir) ((pathText target).steps ++ stepsOf rest)
        (if stepsOf rest = [] ∧ endsInSlash rest = false then (pathText target).slash
          else endsInSlash rest) names := by
    intro more
    rw [LeadsTo, stepsOf_append hrest, hslash]
    rfl
  simp only [hspliced]
  exact hstart.leadsTo.trans (walks_link hlinks.tree)

theorem Answers.of_link {target : CString} (hstart : StartsWith start comp rest)
    (hlinks : fs.LinksTo (dir ++ [comp]) target)
    (h : Answers fs (num_links + 1) (if (pathText target).absolute then [] else dir)
      (target ++ rest) answer) : Answers fs num_links dir start answer :=
  h.of_iff (fun _ _ => hstart.leadsTo_link hlinks) fun _ => Overlong.follow hstart hlinks

/-- A name that is a link leads somewhere only over this link. -/
theorem StartsWith.linksTo (hstart : StartsWith start comp rest)
    (hmode : fs.lstat (render (dir ++ [comp])) = .ok .link)
    (hshort : (render (dir ++ [comp])).length < PATH_MAX) {links : Nat} {names : List CString}
    (h : LeadsTo fs links dir start names) :
    0 < links ∧ ∃ target, fs.LinksTo (dir ++ [comp]) target := by
  have htree : fs.tree (dir ++ [comp]) = _ := tree_of_short hshort
  rcases (hstart.leadsTo.1 h).exists_node with ⟨node, hnode⟩
  rw [hmode] at htree
  cases hread : fs.readlink (render (dir ++ [comp])) with
  | error errno =>
      rw [hread, hnode] at htree
      cases htree
  | ok target =>
      have hlinks : fs.LinksTo (dir ++ [comp]) target := ⟨hshort, hmode, hread⟩
      rcases (hstart.leadsTo_link hlinks).1 h with ⟨more, rfl, _⟩
      exact ⟨Nat.succ_pos more, target, hlinks⟩

/-- A link too many. -/
theorem Answers.of_many {resolved : Option CString} (hstart : StartsWith start comp rest)
    (hmany : num_links + 1 > MAXSYMLINKS)
    (hmode : fs.lstat (render (dir ++ [comp])) = .ok .link)
    (hshort : (render (dir ++ [comp])).length < PATH_MAX) :
    Answers fs num_links dir start (.failed .ELOOP resolved) := by
  refine Answers.failed fun links names hleads => Or.inl ⟨rfl, ?_⟩
  have hpos := (hstart.linksTo hmode hshort hleads).1
  omega

/-- A link that is not followed. -/
theorem Answers.of_unfollowed {errno : Errno} {resolved : CString}
    (hstart : StartsWith start comp rest) (hmany : ¬num_links + 1 > MAXSYMLINKS)
    (hmode : fs.lstat (render (dir ++ [comp])) = .ok .link)
    (hshort : (render (dir ++ [comp])).length < PATH_MAX)
    (hfollows : Follows fs dir comp rest (.abort errno resolved)) :
    Answers fs num_links dir start (.failed errno (some resolved)) := by
  refine Answers.failed fun links names hleads => ?_
  rcases hstart.linksTo hmode hshort hleads with ⟨hpos, target, hlinks⟩
  cases hfollows with
  | lost hnone =>
      rw [hlinks.tree] at hnone
      cases hnone
  | tooLong hlinks' hlong =>
      exact Or.inr ⟨rfl, 1, Nat.one_pos, hpos, by omega, Overlong.here hstart hlinks' hlong⟩

end Name

section Equations

variable {resolved : CString}

theorem navigate_end (hcomp : component (skipSlashes start) = []) :
    navigate fs num_links resolved start = finish resolved := by
  rw [navigate, dif_pos hcomp]

theorem navigate_dot (hcomp : component (skipSlashes start) ≠ [])
    (hdot : component (skipSlashes start) = [DOT]) :
    navigate fs num_links resolved start =
      navigate fs num_links resolved (afterComponent (skipSlashes start)) := by
  rw [navigate, dif_neg hcomp]
  exact if_pos hdot

theorem navigate_dots {back : CString} (hdots : component (skipSlashes start) = [DOT, DOT])
    (hback : backUp resolved = .ok back) :
    navigate fs num_links resolved start =
      navigate fs num_links back (afterComponent (skipSlashes start)) := by
  rw [navigate, dif_neg (by rw [hdots]; exact List.cons_ne_nil _ _)]
  simp only [hdots, hback]
  rfl

theorem navigate_name (hcomp : component (skipSlashes start) ≠ [])
    (hdot : component (skipSlashes start) ≠ [DOT])
    (hdots : component (skipSlashes start) ≠ [DOT, DOT]) :
    navigate fs num_links resolved start =
      match visit fs resolved (component (skipSlashes start))
        (afterComponent (skipSlashes start)) with
      | .error halt => .error halt
      | .ok (.abort errno resolved) => .ok (.failed errno (some resolved))
      | .ok (.next resolved) =>
          navigate fs num_links resolved (afterComponent (skipSlashes start))
      | .ok (.link resolved) =>
          if num_links + 1 > MAXSYMLINKS then
            .ok (.failed .ELOOP (some resolved))
          else
            match followLink fs resolved (afterComponent (skipSlashes start)) with
            | .error halt => .error halt
            | .ok (.abort errno resolved) => .ok (.failed errno (some resolved))
            | .ok (.restart resolved start) => navigate fs (num_links + 1) resolved start := by
  rw [navigate, dif_neg hcomp]
  simp only [if_neg hdot, if_neg hdots]
  rfl

end Equations

/-- From wherever the buffer stands, `navigate` goes where the steps lead. -/
theorem navigate_answers (hfs : fs.Lawful) {num_links : Nat} (hlinks : num_links ≤ MAXSYMLINKS)
    {dir : List CString} {resolved : CString} (start : CString) (h : Stands resolved dir)
    (hdir : ValidNames dir) (hroom : resolved.length < PATH_MAX) :
    ∃ answer, navigate fs num_links resolved start = .ok answer ∧
      Answers fs num_links dir start answer := by
  by_cases hcomp : component (skipSlashes start) = []
  · refine ⟨_, (navigate_end hcomp).trans (finish_stands h hdir hroom), ?_⟩
    have hends : LeadsTo fs 0 dir start dir := by
      rw [LeadsTo, stepsOf_eq_nil hcomp]
      exact Walks.done _ _
    exact Answers.found hlinks hends
  · have hless := length_afterComponent_lt hcomp
    by_cases hdot : component (skipSlashes start) = [DOT]
    · rcases navigate_answers hfs hlinks (afterComponent (skipSlashes start)) h hdir hroom with
        ⟨answer, hanswer, hanswers⟩
      exact ⟨answer, (navigate_dot hcomp hdot).trans hanswer, hanswers.of_dot hdot⟩
    · by_cases hdots : component (skipSlashes start) = [DOT, DOT]
      · have hback := backUp_stands h hdir
        have hshorter := Nat.lt_of_le_of_lt (length_slash_dropLast_le h) hroom
        rcases navigate_answers hfs hlinks (afterComponent (skipSlashes start))
          (stands_slash dir.dropLast) hdir.dropLast hshorter with ⟨answer, hanswer, hanswers⟩
        exact ⟨answer, (navigate_dots hdots hback).trans hanswer, hanswers.of_dots hdots⟩
      · rw [navigate_name hcomp hdot hdots]
        have hvalid := validName_component hcomp hdot hdots
        have hstart : StartsWith start (component (skipSlashes start))
            (afterComponent (skipSlashes start)) := ⟨rfl, rfl, hvalid⟩
        have hname := hdir.concat hvalid
        rcases visit_visits h hdir hroom (component (skipSlashes start))
          (afterComponent (skipSlashes start)) with ⟨visited, hvisit, hvisits⟩
        rw [hvisit]
        cases visited with
        | abort errno buffer => exact ⟨_, rfl, Answers.of_lost hstart hvisits⟩
        | next buffer =>
            rcases hvisits.next_stands with ⟨hstands, hfits⟩
            rcases navigate_answers hfs hlinks (afterComponent (skipSlashes start)) hstands hname
              hfits with ⟨answer, hanswer, hanswers⟩
            exact ⟨answer, hanswer, hanswers.of_next hstart hvisits⟩
        | link buffer =>
            cases hvisits with
            | link hmode hshort =>
                by_cases hmany : num_links + 1 > MAXSYMLINKS
                · exact ⟨_, if_pos hmany, Answers.of_many hstart hmany hmode hshort⟩
                · rcases followLink_follows hfs hname hmode hshort
                    (afterComponent (skipSlashes start)) with ⟨followed, hfollow, hfollows⟩
                  simp only [if_neg hmany, hfollow]
                  cases followed with
                  | abort errno buffer =>
                      exact ⟨_, rfl,
                        Answers.of_unfollowed hstart hmany hmode hshort hfollows⟩
                  | restart buffer spliced =>
                      cases hfollows with
                      | @restart _ target hleads hstands hfits =>
                          have hbase : ValidNames
                              (if (pathText target).absolute then [] else dir) := by
                            split
                            · exact fun name hmem => absurd hmem List.not_mem_nil
                            · exact hdir
                          rcases navigate_answers hfs (Nat.not_lt.1 hmany) _ hstands hbase hfits
                            with ⟨answer, hanswer, hanswers⟩
                          exact ⟨answer, hanswer, hanswers.of_link hstart hleads⟩
termination_by (MAXSYMLINKS - num_links, start.length)
decreasing_by
  · exact Prod.Lex.right _ hless
  · exact Prod.Lex.right _ hless
  · exact Prod.Lex.right _ hless
  · exact Prod.Lex.left _ _ (by omega)

end WholePath

/-! ## `vde_realpath` -/

/-- The directory where the path begins. -/
def Begins (fs : FileSystem) (name : CString) (dir : List CString) : Prop :=
  ValidNames dir ∧
    if name.head? = some SLASH then
      dir = []
    else
      fs.getcwd = .ok (render dir) ∧ (render dir).length < PATH_MAX

section Realpath

variable {fs : FileSystem} {name : CString}

theorem Begins.unique {dir dir' : List CString} (h : Begins fs name dir)
    (h' : Begins fs name dir') : dir = dir' := by
  by_cases habsolute : name.head? = some SLASH
  · rw [Begins, if_pos habsolute] at h h'
    rw [h.2, h'.2]
  · rw [Begins, if_neg habsolute] at h h'
    exact render_injective h.1 h'.1 (Except.ok.inj (h.2.1.symm.trans h'.2.1))

/-- Where the path begins, the answer is one about the path. -/
theorem Begins.answers {dir : List CString} {answer : Resolution} (h : Begins fs name dir)
    (hanswers : Answers fs 0 dir name answer) :
    (∀ dir, Begins fs name dir → Answers fs 0 dir name answer) ∧
      ((∀ dir, ¬Begins fs name dir) → ∃ errno, answer = .failed errno (some [])) := by
  constructor
  · intro other hother
    rw [hother.unique h]
    exact hanswers
  · intro hnone
    exact absurd h (hnone dir)

theorem begins_of_absolute (h : name.head? = some SLASH) : Begins fs name [] := by
  rw [Begins, if_pos h]
  exact ⟨validNames_nil, rfl⟩

/-- It stays inside of its buffers, and goes where the path leads. -/
theorem vdeRealpath_answers (hfs : fs.Lawful) (hname : name ≠ []) :
    ∃ answer, vdeRealpath fs true (some name) = .ok answer ∧
      (∀ dir, Begins fs name dir → Answers fs 0 dir name answer) ∧
        ((∀ dir, ¬Begins fs name dir) → ∃ errno, answer = .failed errno (some [])) := by
  cases name with
  | nil => exact absurd rfl hname
  | cons c rest =>
      by_cases hc : c = SLASH
      · have hbegins : Begins fs (c :: rest) [] := begins_of_absolute (congrArg some hc)
        by_cases hroot : rest = []
        · refine ⟨.found [SLASH], by simp [vdeRealpath, hc, hroot], hbegins.answers ?_⟩
          have hends : LeadsTo fs 0 [] (c :: rest) [] := by
            rw [LeadsTo, hc, hroot, stepsOf_eq_nil rfl]
            exact Walks.done [] _
          exact Answers.found (Nat.zero_le _) hends
        · rcases navigate_answers hfs (Nat.zero_le _) (c :: rest) (stands_render []) validNames_nil
            (by decide) with ⟨answer, hanswer, hanswers⟩
          refine ⟨answer, ?_, hbegins.answers hanswers⟩
          rw [← hanswer]
          simp [vdeRealpath, hc, hroot, render_nil]
      · have hrelative : (c :: rest).head? ≠ some SLASH := fun h => hc (Option.some.inj h)
        cases hcwd : fs.getcwd with
        | error errno =>
            refine ⟨.failed errno (some []), by simp [vdeRealpath, hc, hcwd], ?_, ?_⟩
            · intro dir hbegins
              rw [Begins, if_neg hrelative, hcwd] at hbegins
              cases hbegins.2.1
            · exact fun _ => ⟨errno, rfl⟩
        | ok cwd =>
            rcases hfs.cwd_canonical cwd hcwd with ⟨dir, hdir, rfl⟩
            by_cases hshort : (render dir).length < PATH_MAX
            · have hbegins : Begins fs (c :: rest) dir := by
                rw [Begins, if_neg hrelative]
                exact ⟨hdir, hcwd, hshort⟩
              rcases navigate_answers hfs (Nat.zero_le _) (c :: rest) (stands_render dir) hdir
                hshort with ⟨answer, hanswer, hanswers⟩
              refine ⟨answer, ?_, hbegins.answers hanswers⟩
              rw [← hanswer]
              simp [vdeRealpath, hc, hcwd, hshort]
            · refine ⟨.failed .ERANGE (some []), by simp [vdeRealpath, hc, hcwd, hshort], ?_, ?_⟩
              · intro other hbegins
                rw [Begins, if_neg hrelative, hcwd] at hbegins
                rw [← Except.ok.inj hbegins.2.1] at hbegins
                exact absurd hbegins.2.2 hshort
              · exact fun _ => ⟨.ERANGE, rfl⟩

/-- A directory `/d`, the working directory, with a file `/d/f` in it, and a link `/l` to `d`. -/
def linkedFs : FileSystem :=
  { getcwd := .ok [47, 100]
    lstat := fun path =>
      if path = [47, 100] then .ok .directory
      else if path = [47, 100, 47, 102] then .ok .other
      else if path = [47, 108] then .ok .link
      else .error .ENOENT
    readlink := fun path => if path = [47, 108] then .ok [100] else .error .EINVAL
    access := fun _ => true }

theorem validNames_d : ValidNames [[100]] := by
  intro name hname
  rw [List.mem_singleton.1 hname]
  exact ⟨by decide, by decide, by decide, by decide⟩

theorem linkedFs_lawful : linkedFs.Lawful where
  shortLinks path target h := by
    simp only [linkedFs] at h
    split at h
    · cases h
      decide
    · cases h
  cwd_canonical cwd h := by
    cases h
    exact ⟨[[100]], validNames_d, rfl⟩

/-- The path `/l//./f`. -/
theorem vdeRealpath_answers_linked :
    ∃ answer, vdeRealpath linkedFs true (some [47, 108, 47, 47, 46, 47, 102]) = .ok answer ∧
      (∀ dir, Begins linkedFs [47, 108, 47, 47, 46, 47, 102] dir →
        Answers linkedFs 0 dir [47, 108, 47, 47, 46, 47, 102] answer) ∧
        ((∀ dir, ¬Begins linkedFs [47, 108, 47, 47, 46, 47, 102] dir) →
          ∃ errno, answer = .failed errno (some [])) :=
  vdeRealpath_answers linkedFs_lawful (by decide)

/-! ## The canonical name -/

theorem validNames_of_walks {links : Nat} {dir names : List CString} {start : CString}
    (h : LeadsTo fs links dir start names)
    (hdir : ValidNames dir) : ValidNames names := by
  refine h.forall_names ?_ hdir fun _ => validName_of_mem_stepsOf
  intro names target hnode other hother
  unfold FileSystem.tree at hnode
  split at hnode
  · cases hnode
  · split at hnode
    · cases hnode
    · split at hnode
      · cases hnode
      · cases hnode
        exact validName_of_mem_stepsOf hother
    · cases hnode
    · cases hnode

/-- Names that are settled are their own answer. -/
theorem vdeRealpath_render (hfs : fs.Lawful) {names : List CString} (hnames : ValidNames names)
    (hsettled : Settled fs.tree names) :
    vdeRealpath fs true (some (render names)) = .ok (.found (render names)) := by
  have hbegins : Begins fs (render names) [] := begins_of_absolute (head?_render names)
  rcases vdeRealpath_answers hfs (render_ne_nil names) with ⟨answer, hanswer, hanswers, _⟩
  by_cases hnil : names = []
  · rw [hnil]
    rfl
  · have hwalk : LeadsTo fs 0 [] (render names) names := by
      rw [LeadsTo, stepsOf_render hnames, render_of_ne_nil hnil, endsInSlash_joined hnames]
      exact hsettled.walks
    rw [hanswer]
    cases hanswers [] hbegins with
    | found _ hfound => rw [(hfound.unique hwalk).2]
    | failed hfails =>
        rcases hfails 0 names hwalk with ⟨_, hmany⟩ | ⟨_, more, hpos, hle, _⟩
        · exact absurd hmany (by decide)
        · exact absurd hle (Nat.not_le.2 hpos)

/-- What is found is canonical: it has no link, `.` or `..` in it, and is found again. -/
theorem vdeRealpath_canonical (hfs : fs.Lawful)
    (hcwd : name.head? ≠ some SLASH →
      ∀ dir, ValidNames dir → fs.getcwd = .ok (render dir) → OpenPath fs.tree dir)
    {hasMemory : Bool} {resolved : CString}
    (h : vdeRealpath fs hasMemory (some name) = .ok (.found resolved)) :
    ∃ names, ValidNames names ∧ Settled fs.tree names ∧ resolved = render names ∧
      vdeRealpath fs true (some resolved) = .ok (.found resolved) := by
  have hname : name ≠ [] := by
    rintro rfl
    cases h
  have hmemory : hasMemory = true := by
    cases hasMemory with
    | true => rfl
    | false =>
        cases name with
        | nil => exact absurd rfl hname
        | cons c rest => cases h
  subst hmemory
  rcases vdeRealpath_answers hfs hname with ⟨answer, hanswer, hanswers, hnone⟩
  rw [h] at hanswer
  cases hanswer
  have hbegins : ∃ dir, Begins fs name dir := by
    by_contra hnowhere
    rcases hnone (not_exists.1 hnowhere) with ⟨errno, hfailed⟩
    cases hfailed
  rcases hbegins with ⟨dir, hbegins⟩
  have hopen : OpenPath fs.tree dir := by
    by_cases habsolute : name.head? = some SLASH
    · rw [hbegins.unique (begins_of_absolute habsolute)]
      exact openPath_nil
    · rcases hbegins with ⟨hdir, hstart⟩
      rw [if_neg habsolute] at hstart
      exact hcwd habsolute dir hdir hstart.1
  cases hanswers dir hbegins with
  | found _ hwalk =>
      have hnames := validNames_of_walks hwalk hbegins.1
      have hsettled := hwalk.settled hopen.settled fun _ => hopen
      exact ⟨_, hnames, hsettled, rfl, vdeRealpath_render hfs hnames hsettled⟩

theorem linkedFs_cwd (dir : List CString) (hdir : ValidNames dir)
    (h : linkedFs.getcwd = .ok (render dir)) : OpenPath linkedFs.tree dir := by
  have hrender : render [[100]] = render dir := Except.ok.inj h
  rw [← render_injective validNames_d hdir hrender]
  exact openPath_nil.append rfl

/-- The path `../l//./f`. -/
theorem vdeRealpath_canonical_linked :
    ∃ names, ValidNames names ∧ Settled linkedFs.tree names ∧ [47, 100, 47, 102] = render names ∧
      vdeRealpath linkedFs true (some [47, 100, 47, 102]) = .ok (.found [47, 100, 47, 102]) := by
  have hfound : vdeRealpath linkedFs true (some [46, 46, 47, 108, 47, 47, 46, 47, 102]) =
      .ok (.found [47, 100, 47, 102]) := by
    simp [vdeRealpath, navigate, linkedFs, component, afterComponent, skipSlashes, SLASH, DOT,
      visit, putSlash, PATH_MAX, followLink, backUp, backToSlash, finish, terminate, MAXSYMLINKS,
      Except.bind, Except.map]
  exact vdeRealpath_canonical linkedFs_lawful (fun _ => linkedFs_cwd) hfound

end Realpath

end Utils
end EVdeSwitch
