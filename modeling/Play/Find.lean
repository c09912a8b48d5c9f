/-
Play/Find.lean

`act_ensure::find`, which act an absolute path leads to.

The search climbs to the closest act whose full path begins the path as a
string, and goes down from there with what is left of it.  On the way down the
path is a relative one, and an act takes it for its own path when the last
part of it is its name: a part that returns later on the same path ends the
search too early.  And an act whose name is only the beginning of the name in
the path takes the search away from the act that has it; what is left then
begins anywhere, even with a delimiter, in which case it is searched for as an
absolute path once more.

`find_exact_iff` says when none of this happens.
-/
import Play.Jump

namespace Play

/-! ### The search -/

/-- What a search comes to. -/
inductive Found
  /-- An exception. -/
  | threw
  /-- No act. -/
  | nothing
  /-- The act at a place. -/
  | act (a : List ℕ)
  deriving DecidableEq

/-- A place below `b`, seen from above. -/
def Found.below (b : List ℕ) : Found → Found
  | .act a => .act (b ++ a)
  | r => r

namespace Act

open Paths

mutual

/-- `find` of an act for a relative path, which stays relative on the way
down; `above` are the names of the acts above. -/
def findRelative (above : List Text) : Act → Text → Found
  | .mk k n _ _ _ as, p =>
      -- `get_path().act_name_`, the last part of the full path
      let actName := getLastAct (buildPath (above ++ [n]))
      if p = [] then .nothing
      else if getLastAct p = actName then .act []
      else
        match getFirstAct p with
        | none => .threw
        | some first =>
            match (if first = actName then popHeadAct p else some p) with
            | none => .threw
            | some q =>
                -- `find_child`, which finds nothing in a leaf
                if k = .leaf then .nothing
                else
                  match getFirstAct q with
                  | none => .threw
                  | some m => findRelativeIn (above ++ [n]) m q 0 as

/-- `find` of the first of the acts that has the name `m`. -/
def findRelativeIn (above : List Text) (m q : Text) : ℕ → List Act → Found
  | _, [] => .nothing
  | i, a :: as =>
      if a.name = m then (a.findRelative above q).below [i]
      else findRelativeIn above m q (i + 1) as

end

/-- `find_child` of the act at `b`. -/
def findChild (t : Act) (find : List ℕ → Text → Found) (b : List ℕ) (q : Text) : Found :=
  match t.get b with
  | none => .nothing
  | some c =>
      if c.kind = .leaf then .nothing
      else
        match getFirstAct q with
        | none => .threw
        | some m =>
            match c.findAct m with
            | none => .nothing
            | some i => find (b ++ [i]) q

/-- `find` of the act at `a` for an absolute path; `up` is what `find_up`
yields. -/
def findAt (t : Act) (find : List ℕ → Text → Found) (p : Text) (a : List ℕ) (up : Found) : Found :=
  if p = t.fullPath a then .act a
  else if isChildOf (t.fullPath a) p then
    match getChildPath (t.fullPath a) p with
    | none => .threw
    | some q => t.findChild find a q
  else up

/-- A search for an absolute path on its way up, from the place that is given
from the act upwards. -/
def findUp (t : Act) (find : List ℕ → Text → Found) (p : Text) : List ℕ → Found
  | [] => t.findAt find p [] .nothing
  | i :: up => t.findAt find p (i :: up).reverse (t.findUp find p up)

/-- `find` for a path that is shorter than `k`. -/
def findWithin (t : Act) : ℕ → List ℕ → Text → Found
  | 0, _, _ => .nothing
  | k + 1, a, p =>
      if p = [] then .nothing
      else if isRelativePath p then
        ((t.get a).elim .nothing (findRelative (t.parents a) · p)).below a
      else t.findUp (t.findWithin k) p a.reverse

/-- `find` of the act at `a`. -/
def find (t : Act) (a : List ℕ) (p : Text) : Found := t.findWithin (p.length + 1) a p

/-! ### The bound on the path is never met -/

variable {t : Act} {a b : List ℕ} {p q : Text}

theorem length_getChildPath {s : Text} (hchild : isChildOf s p = true)
    (hq : getChildPath s p = some q) : q.length < p.length := by
  rw [getChildPath, if_pos hchild] at hq
  split at hq
  · obtain rfl := Option.some.inj hq
    rw [List.length_drop]
    omega
  · cases hq

theorem findUp_congr {f g : List ℕ → Text → Found}
    (hfg : ∀ b q, q.length < p.length → f b q = g b q) (up : List ℕ) :
    t.findUp f p up = t.findUp g p up := by
  have hat : ∀ a r, t.findAt f p a r = t.findAt g p a r := by
    intro a r
    unfold findAt
    split_ifs with hself hchild
    · rfl
    · rcases hq : getChildPath (t.fullPath a) p with - | q
      · rfl
      · simp only [findChild, hfg _ q (length_getChildPath hchild hq)]
    · rfl
  induction up with
  | nil => exact hat _ _
  | cons i up ih => rw [findUp, findUp, ih, hat]

theorem findWithin_congr {k l : ℕ} (hk : p.length < k) (hl : p.length < l) (a : List ℕ) :
    t.findWithin k a p = t.findWithin l a p := by
  induction k generalizing l a p with
  | zero => omega
  | succ k ih =>
      cases l with
      | zero => omega
      | succ l =>
          unfold findWithin
          split_ifs
          · rfl
          · rfl
          · exact findUp_congr (fun b q hq => ih (by omega) (by omega) b) _

/-- The search as the source has it, without the bound. -/
theorem find_eq (t : Act) (a : List ℕ) (p : Text) :
    t.find a p =
      if p = [] then .nothing
      else if isRelativePath p then
        ((t.get a).elim .nothing (findRelative (t.parents a) · p)).below a
      else t.findUp t.find p a.reverse := by
  unfold find
  rw [findWithin]
  split_ifs
  · rfl
  · rfl
  · exact findUp_congr (fun b q hq => findWithin_congr hq (by omega) b) _

theorem find_of_absolute (hp : isAbsolutePath p = true) :
    t.find a p = t.findUp t.find p a.reverse := by
  obtain ⟨hnil, hrel⟩ := isAbsolutePath_iff.mp hp
  rw [find_eq, if_neg hnil, hrel, if_neg Bool.false_ne_true]

/-! ### The way down, on names -/

/-- The act that `find_act` finds, with its index. -/
def child (t : Act) (n : Text) : Option (ℕ × Act) :=
  (t.findAct n).bind fun i => (t.acts[i]?).map (i, ·)

/-- The place below the act that names lead to. -/
def locate : Act → List Text → Option (List ℕ)
  | _, [] => some []
  | t, n :: ns => (t.child n).bind fun ic => (ic.2.locate ns).map (ic.1 :: ·)

/-- The search below an act for a relative path, whose last part is `last`:
it ends at the first act of that name. -/
def reach (last : Text) : Act → List Text → Found
  | _, [] => .nothing
  | t, n :: ns =>
      (t.child n).elim .nothing fun ic =>
        if n = last then .act [ic.1] else (reach last ic.2 ns).below [ic.1]

/-- A leaf has no acts. -/
def Loaded (t : Act) : Prop := ∀ a c, t.get a = some c → c.kind = .leaf → c.acts = []

theorem child_eq_some {c : Act} {n : Text} {i : ℕ} (h : t.child n = some (i, c)) :
    t.findAct n = some i ∧ t.acts[i]? = some c ∧ c.name = n := by
  obtain ⟨j, hj, hc⟩ := Option.bind_eq_some_iff.mp h
  obtain ⟨d, hd, hcd⟩ := Option.map_eq_some_iff.mp hc
  obtain ⟨rfl, rfl⟩ := Prod.mk.inj hcd
  obtain ⟨e, he, hname⟩ := findAct_getElem? hj
  obtain rfl := Option.some.inj (hd.symm.trans he)
  exact ⟨hj, hd, hname⟩

theorem child_eq_none {n : Text} (h : t.child n = none) : t.findAct n = none := by
  rcases hfind : t.findAct n with - | i
  · rfl
  · obtain ⟨d, hd, -⟩ := findAct_getElem? hfind
    rw [child, hfind] at h
    simp [hd] at h

theorem WellNamed.get {c : Act} (ht : t.WellNamed) (hc : t.get a = some c) : c.WellNamed := by
  refine ⟨fun {b d} hd => ht.isName (a := a ++ b) ?_, fun {b d} hd =>
    ht.nodup (a := a ++ b) ?_⟩ <;>
  · rw [get_append, hc]
    exact hd

theorem Loaded.get {c : Act} (ht : t.Loaded) (hc : t.get a = some c) : c.Loaded := by
  intro b d hd
  refine ht (a ++ b) d ?_
  rw [get_append, hc]
  exact hd

theorem get_singleton {i : ℕ} {c : Act} (hc : t.acts[i]? = some c) : t.get [i] = some c := by
  rw [Act.get, hc]
  rfl

/-- The acts are looked through for the first one of the name. -/
theorem findRelativeIn_eq (above : List Text) (m q : Text) (i : ℕ) (as : List Act) :
    findRelativeIn above m q i as =
      (as.findIdx? fun a => a.name == m).elim .nothing fun j =>
        (as[j]?).elim .nothing fun c => (c.findRelative above q).below [i + j] := by
  induction as generalizing i with
  | nil => rw [findRelativeIn, List.findIdx?_nil, Option.elim_none]
  | cons a as ih =>
      rw [findRelativeIn, List.findIdx?_cons]
      by_cases hname : a.name = m
      · rw [if_pos hname, if_pos (beq_iff_eq.mpr hname)]
        rfl
      · rw [if_neg hname, if_neg (by simpa using hname), ih]
        cases as.findIdx? (·.name == m) with
        | none => rfl
        | some j =>
            show _ = ((a :: as)[j + 1]?).elim _ _
            rw [List.getElem?_cons_succ, show i + (j + 1) = i + 1 + j by omega]
            rfl

theorem findRelativeIn_child (c : Act) (above : List Text) (m q : Text) :
    findRelativeIn above m q 0 c.acts = (c.child m).elim .nothing fun ic =>
      (ic.2.findRelative above q).below [ic.1] := by
  rw [findRelativeIn_eq]
  show (c.findAct m).elim _ _ = _
  unfold child
  rcases c.findAct m with - | j
  · rfl
  · cases hd : c.acts[j]? <;> simp [hd]

theorem findRelative_def (c : Act) (above : List Text) (p : Text) :
    c.findRelative above p =
      if p = [] then .nothing
      else if getLastAct p = getLastAct (buildPath (above ++ [c.name])) then .act []
      else
        match getFirstAct p with
        | none => .threw
        | some first =>
            match (if first = getLastAct (buildPath (above ++ [c.name])) then popHeadAct p
              else some p) with
            | none => .threw
            | some q =>
                if c.kind = .leaf then .nothing
                else
                  match getFirstAct q with
                  | none => .threw
                  | some m => (c.child m).elim .nothing fun ic =>
                      (ic.2.findRelative (above ++ [c.name]) q).below [ic.1] := by
  obtain ⟨k, m, fl, act, cur, as⟩ := c
  rw [findRelative]
  have hin := findRelativeIn_child (.mk k m fl act cur as) (above ++ [m])
  simp only [acts] at hin
  simp only [hin]
  rfl

/-- One act on the way down, for a path that begins with its name. -/
theorem findRelative_step {c : Act} {above ns : List Text} {last : Text}
    (habove : ∀ n ∈ above, IsName n) (hall : ∀ n ∈ c.name :: ns, IsName n)
    (hlast : (c.name :: ns).getLast? = some last) :
    c.findRelative above (join (c.name :: ns)) =
      if last = c.name then .act []
      else if c.kind = .leaf then .nothing
      else
        match getFirstAct (join ns) with
        | none => .threw
        | some m => (c.child m).elim .nothing fun ic =>
            (ic.2.findRelative (above ++ [c.name]) (join ns)).below [ic.1] := by
  have hname : IsName c.name := hall _ List.mem_cons_self
  have habove' : ∀ m ∈ above ++ [c.name], IsName m := List.forall_mem_append.mpr
    ⟨habove, List.forall_mem_singleton.mpr hname⟩
  have hself : getLastAct (buildPath (above ++ [c.name])) = c.name := by
    rw [getLastAct_buildPath habove', List.getLast?_concat]
    rfl
  have hpath : getLastAct (join (c.name :: ns)) = last := by
    rw [getLastAct_join hall, hlast]
    rfl
  have hne : join (c.name :: ns) ≠ [] := join_ne_nil hname.1
  rw [findRelative_def]
  simp only [hself, hpath, getFirstAct_join hall, popHeadAct_join hall, hne, if_true, if_false]

/-- **The way down refines `reach`.**  The relative path of an act from its own
name on leads to the act itself, if that is its last part, and otherwise to
where the names below it lead. -/
theorem findRelative_eq {c : Act} {above ns : List Text} {last : Text}
    (habove : ∀ n ∈ above, IsName n) (hc : c.WellNamed) (hload : c.Loaded)
    (hns : ∀ n ∈ ns, IsName n) (hlast : (c.name :: ns).getLast? = some last) :
    c.findRelative above (join (c.name :: ns)) =
      if last = c.name then .act [] else reach last c ns := by
  induction ns generalizing c above with
  | nil =>
      have hname : IsName c.name := hc.isName (a := []) rfl
      obtain rfl : c.name = last := Option.some.inj hlast
      rw [findRelative_step habove (List.forall_mem_singleton.mpr hname) hlast, if_pos rfl,
        if_pos rfl]
  | cons n ns ih =>
      have hname : IsName c.name := hc.isName (a := []) rfl
      have hall : ∀ m ∈ c.name :: n :: ns, IsName m := List.forall_mem_cons.mpr ⟨hname, hns⟩
      rw [findRelative_step habove hall hlast, getFirstAct_join hns]
      by_cases hend : last = c.name
      · rw [if_pos hend, if_pos hend]
      · rw [if_neg hend, if_neg hend, reach]
        rcases hchild : c.child n with - | ⟨i, d⟩
        · simp [hchild]
        · obtain ⟨-, hd, rfl⟩ := child_eq_some hchild
          have hkind : c.kind ≠ .leaf := by
            intro hk
            rw [hload [] c rfl hk] at hd
            cases hd
          have habove' : ∀ m ∈ above ++ [c.name], IsName m := List.forall_mem_append.mpr
            ⟨habove, List.forall_mem_singleton.mpr hname⟩
          rw [List.getLast?_cons_cons] at hlast
          simp only [if_neg hkind, hchild, Option.elim_some]
          rw [ih habove' (hc.get (get_singleton hd)) (hload.get (get_singleton hd))
            (fun m hm => hns m (List.mem_cons_of_mem _ hm)) hlast]
          by_cases hd' : last = d.name
          · rw [if_pos hd', if_pos hd'.symm]
            rfl
          · rw [if_neg hd', if_neg (Ne.symm hd')]

/-! ### Where the way down ends -/

/-- Names that lead to an act below, at a part of the path that is the same as
its last one. -/
def Stops (c : Act) (last : Text) (ns ms : List Text) : Prop :=
  ms <+: ns ∧ ms.getLast? = some last ∧ (c.locate ms).isSome = true

variable {c : Act} {last : Text} {ns ms : List Text}

theorem stops_cons {n : Text} {i : ℕ} {d : Act} (hchild : c.child n = some (i, d)) :
    c.Stops last (n :: ns) (n :: ms) ↔ (ms = [] ∧ n = last) ∨ (ms ≠ [] ∧ d.Stops last ns ms) := by
  have hloc : (c.locate (n :: ms)).isSome = (d.locate ms).isSome := by
    rw [locate, hchild]
    exact Option.isSome_map
  rw [Stops, hloc, List.cons_prefix_cons]
  cases ms with
  | nil => simp [locate]
  | cons m ms => simp [Stops, List.getLast?_cons_cons]

theorem Stops.exists_cons {n : Text} (h : c.Stops last (n :: ns) ms) :
    ∃ ms', ms = n :: ms' := by
  obtain ⟨hpre, hlast, -⟩ := h
  cases ms with
  | nil => cases hlast
  | cons m ms' => exact ⟨ms', by rw [(List.cons_prefix_cons.mp hpre).1]⟩

/-- The search ends at the first place where it can stop. -/
theorem reach_spec (last : Text) (c : Act) (ns : List Text) :
    (∃ ms b, reach last c ns = .act b ∧ c.locate ms = some b ∧ c.Stops last ns ms ∧
      ∀ ms', c.Stops last ns ms' → ms <+: ms') ∨
    (reach last c ns = .nothing ∧ ∀ ms, ¬ c.Stops last ns ms) := by
  induction ns generalizing c with
  | nil =>
      refine .inr ⟨rfl, fun ms hms => ?_⟩
      rw [List.prefix_nil.mp hms.1] at hms
      cases hms.2.1
  | cons n ns ih =>
      rcases hchild : c.child n with - | ⟨i, d⟩
      · refine .inr ⟨by rw [reach, hchild]; rfl, fun ms hms => ?_⟩
        obtain ⟨ms', rfl⟩ := hms.exists_cons
        have := hms.2.2
        rw [locate, hchild] at this
        cases this
      · by_cases hn : n = last
        · refine .inl ⟨[n], [i], ?_, ?_, (stops_cons hchild).mpr (.inl ⟨rfl, hn⟩), ?_⟩
          · rw [reach, hchild, Option.elim_some, if_pos hn]
          · rw [locate, hchild]
            rfl
          · intro ms hms
            obtain ⟨ms', rfl⟩ := hms.exists_cons
            exact List.cons_prefix_cons.mpr ⟨rfl, List.nil_prefix⟩
        · have hreach : reach last c (n :: ns) = (reach last d ns).below [i] := by
            rw [reach, hchild, Option.elim_some, if_neg hn]
          have hbelow : ∀ ms, c.Stops last (n :: ns) (n :: ms) → d.Stops last ns ms := by
            intro ms hms
            rcases (stops_cons hchild).mp hms with ⟨-, e⟩ | ⟨-, hd⟩
            · exact absurd e hn
            · exact hd
          rcases ih d with ⟨ms, b, hb, hloc, hstop, hfirst⟩ | ⟨hnone, hno⟩
          · refine .inl ⟨n :: ms, i :: b, by rw [hreach, hb]; rfl, ?_, ?_, fun ms' hms' => ?_⟩
            · rw [locate, hchild]
              show (d.locate ms).map _ = _
              rw [hloc]
              rfl
            · refine (stops_cons hchild).mpr (.inr ⟨?_, hstop⟩)
              rintro rfl
              cases hstop.2.1
            · obtain ⟨ms'', rfl⟩ := hms'.exists_cons
              exact List.cons_prefix_cons.mpr ⟨rfl, hfirst _ (hbelow _ hms')⟩
          · refine .inr ⟨by rw [hreach, hnone]; rfl, fun ms hms => ?_⟩
            obtain ⟨ms', rfl⟩ := hms.exists_cons
            exact hno _ (hbelow _ hms)

/-! ### Places and names -/

theorem names_eq_cons (t : Act) (b : List ℕ) : ∃ ns, t.names b = t.name :: ns := by
  cases b with
  | nil => exact ⟨[], rfl⟩
  | cons i b => exact ⟨_, rfl⟩

/-- Names lead to the act that has them on the way to it. -/
theorem locate_eq_some_iff (ht : t.WellNamed) :
    t.locate ms = some b ↔ (t.get b).isSome = true ∧ t.names b = t.name :: ms := by
  induction ms generalizing t b with
  | nil =>
      cases b with
      | nil => simp [locate, Act.get, names]
      | cons i b =>
          constructor
          · intro h
            cases h
          · rintro ⟨hget, hnames⟩
            obtain ⟨d, hd⟩ := Option.isSome_iff_exists.mp hget
            obtain ⟨e, he, -⟩ := Option.bind_eq_some_iff.mp hd
            obtain ⟨ns, hns⟩ := names_eq_cons e b
            rw [names, he, Option.elim_some, hns] at hnames
            cases hnames
  | cons n ms ih =>
      constructor
      · intro h
        obtain ⟨⟨i, d⟩, hchild, h⟩ := Option.bind_eq_some_iff.mp h
        obtain ⟨b', hb', rfl⟩ := Option.map_eq_some_iff.mp h
        obtain ⟨-, hd, rfl⟩ := child_eq_some hchild
        obtain ⟨hget, hnames⟩ := (ih (ht.get (get_singleton hd))).mp hb'
        rw [Act.get, names, hd, Option.elim_some, hnames]
        exact ⟨hget, rfl⟩
      · rintro ⟨hget, hnames⟩
        cases b with
        | nil => cases hnames
        | cons i b =>
            obtain ⟨e, he⟩ := Option.isSome_iff_exists.mp hget
            obtain ⟨d, hd, he⟩ := Option.bind_eq_some_iff.mp he
            rw [names, hd, Option.elim_some] at hnames
            have hbelow := (List.cons.inj hnames).2
            obtain ⟨ns, hns⟩ := names_eq_cons d b
            obtain rfl : d.name = n := (List.cons.inj (hns.symm.trans hbelow)).1
            have hchild : t.child d.name = some (i, d) := by
              rw [child, ht.findAct (a := []) rfl hd]
              simp [hd]
            rw [locate, hchild]
            show (d.locate ms).map _ = _
            rw [(ih (ht.get (get_singleton hd))).mpr ⟨by rw [he]; rfl, hbelow⟩]
            rfl

theorem locate_append (t : Act) (ms ns : List Text) :
    t.locate (ms ++ ns) =
      (t.locate ms).bind fun b => (t.get b).bind fun c => (c.locate ns).map (b ++ ·) := by
  induction ms generalizing t with
  | nil => simp [locate, Act.get]
  | cons m ms ih =>
      rw [List.cons_append, locate, locate]
      rcases hchild : t.child m with - | ⟨i, d⟩
      · rfl
      · obtain ⟨-, hd, -⟩ := child_eq_some hchild
        show (d.locate (ms ++ ns)).map _ = ((d.locate ms).map _).bind _
        rw [ih]
        rcases d.locate ms with - | b
        · rfl
        · show ((d.get b).bind _).map _ = (t.get (i :: b)).bind _
          rw [Act.get, hd, Option.bind_some]
          rcases d.get b with - | c
          · rfl
          · exact Option.map_map _ _ _

/-- The same of the names below an act. -/
theorem locate_below_iff (ht : t.WellNamed) (hc : t.get a = some c) :
    c.locate ms = some b ↔
      (t.get (a ++ b)).isSome = true ∧ t.names (a ++ b) = t.names a ++ ms := by
  rw [locate_eq_some_iff (ht.get hc), get_append, hc, names_append hc, names_eq hc,
    List.append_assoc, List.append_cancel_left_eq]
  rfl

theorem parents_child {i : ℕ} {d : Act} (hc : t.get a = some c) (hd : c.acts[i]? = some d) :
    t.parents (a ++ [i]) = t.names a := by
  have := (names_eq (get_child hc hd)).symm.trans (names_child hc hd)
  exact (List.append_inj' this rfl).1

theorem fullPath_eq_iff (ht : t.WellNamed) (hns : ∀ n ∈ ns, IsName n)
    (hb : (t.get b).isSome = true) : t.fullPath b = buildPath ns ↔ t.names b = ns := by
  obtain ⟨d, hd⟩ := Option.isSome_iff_exists.mp hb
  exact ⟨buildPath_injective (ht.names hd) hns, congrArg buildPath⟩

/-! ### The closest act that begins the path -/

/-- The closest act that `is_child_of` takes for one above the path, from the
place that is given from the act upwards. -/
def closest (t : Act) (p : Text) : List ℕ → Option (List ℕ)
  | [] => if isChildOf (t.fullPath []) p then some [] else none
  | i :: up =>
      if isChildOf (t.fullPath (i :: up).reverse) p then some (i :: up).reverse
      else closest t p up

variable {find : List ℕ → Text → Found} {up y : List ℕ}

theorem closest_some (h : t.closest p up = some y) : y <+: up.reverse ∧ t.fullPath y <+: p := by
  induction up with
  | nil =>
      rw [closest, Option.ite_none_right_eq_some, Option.some.injEq] at h
      obtain ⟨hchild, rfl⟩ := h
      exact ⟨List.nil_prefix, isChildOf_iff.mp hchild⟩
  | cons i up ih =>
      rw [closest] at h
      split at h
      · rename_i hchild
        obtain rfl := Option.some.inj h
        exact ⟨List.prefix_refl _, isChildOf_iff.mp hchild⟩
      · obtain ⟨hpre, hpath⟩ := ih h
        refine ⟨?_, hpath⟩
        rw [List.reverse_cons]
        exact hpre.trans (List.prefix_append _ _)

/-- An act that does not begin the path hands the search to its parent. -/
theorem findAt_of_not_child (hno : ¬ isChildOf (t.fullPath a) p = true) (r : Found) :
    t.findAt find p a r = r := by
  have hself : p ≠ t.fullPath a := by
    rintro rfl
    exact hno (isChildOf_iff.mpr (List.prefix_refl _))
  rw [findAt, if_neg hself, if_neg hno]

theorem findUp_of_none (h : t.closest p up = none) : t.findUp find p up = .nothing := by
  induction up with
  | nil =>
      rw [closest] at h
      split at h
      · cases h
      · rename_i hno
        exact findAt_of_not_child hno _
  | cons i up ih =>
      rw [closest] at h
      split at h
      · cases h
      · rename_i hno
        rw [findUp, findAt_of_not_child hno]
        exact ih h

/-- The root is asked last. -/
theorem not_prefix_of_none (h : t.closest p up = none) : ¬ t.fullPath [] <+: p := by
  induction up with
  | nil =>
      rw [closest] at h
      split at h
      · cases h
      · rename_i hno
        exact fun hpre => hno (isChildOf_iff.mpr hpre)
  | cons i up ih =>
      rw [closest] at h
      split at h
      · cases h
      · exact ih h

theorem findUp_of_some (h : t.closest p up = some y) :
    ∃ r, t.findUp find p up = t.findAt find p y r := by
  induction up with
  | nil =>
      rw [closest, Option.ite_none_right_eq_some, Option.some.injEq] at h
      obtain ⟨-, rfl⟩ := h
      exact ⟨_, rfl⟩
  | cons i up ih =>
      rw [closest] at h
      split at h
      · obtain rfl := Option.some.inj h
        exact ⟨_, rfl⟩
      · rename_i hno
        obtain ⟨r, hr⟩ := ih h
        exact ⟨r, by rw [findUp, findAt_of_not_child hno, hr]⟩

/-! ### What a search for an absolute path does -/

theorem below_below (a b : List ℕ) (r : Found) : (r.below b).below a = r.below (a ++ b) := by
  cases r with
  | threw => rfl
  | nothing => rfl
  | act c => exact congrArg Found.act (List.append_assoc a b c).symm

/-- From an act down, with a relative path. -/
theorem findChild_join (ht : t.WellNamed) (hload : t.Loaded) (hc : t.get y = some c) {n : Text}
    (hns : ∀ m ∈ n :: ns, IsName m) (hlast : (n :: ns).getLast? = some last) :
    t.findChild t.find y (join (n :: ns)) = (reach last c (n :: ns)).below y := by
  rw [findChild, hc, reach]
  rcases hchild : c.child n with - | ⟨i, d⟩
  · simp only [getFirstAct_join hns, child_eq_none hchild]
    split_ifs <;> rfl
  · obtain ⟨hfind, hd, rfl⟩ := child_eq_some hchild
    have hkind : c.kind ≠ .leaf := by
      intro hk
      rw [hload y c hc hk] at hd
      cases hd
    have hrel : isRelativePath (join (d.name :: ns)) = true :=
      isRelativePath_join (hns _ List.mem_cons_self)
    have hdget := get_child hc hd
    simp only [if_neg hkind, getFirstAct_join hns, hfind, Option.elim_some]
    rw [find_eq, if_neg (join_ne_nil (hns _ List.mem_cons_self).1), if_pos hrel, hdget,
      Option.elim_some, parents_child hc hd,
      findRelative_eq (ht.names hc) (ht.get hdget) (hload.get hdget)
        (fun m hm => hns m (List.mem_cons_of_mem _ hm)) hlast]
    by_cases hend : last = d.name
    · rw [if_pos hend, if_pos hend.symm]
      exact congrArg Found.act (List.append_nil _)
    · rw [if_neg hend, if_neg (Ne.symm hend), below_below]

/-- The ways of a search for an absolute path, and what they come to.  After
the act that begins the path comes one more character, `l`. -/
inductive Searched (t : Act) (a : List ℕ) (p : Text) : Found → Prop
  /-- No act begins the path. -/
  | nobody : t.closest p a.reverse = none → Searched t a p .nothing
  /-- The path is that of the act. -/
  | self {y : List ℕ} : t.closest p a.reverse = some y → p = t.fullPath y → Searched t a p (.act y)
  /-- The path ends with the character. -/
  | cut {y : List ℕ} {l : Char} : t.closest p a.reverse = some y → l ≠ '/' →
      p = t.fullPath y ++ [l] → Searched t a p .nothing
  /-- What is left is a relative path. -/
  | down {y : List ℕ} {c : Act} {l : Char} {n last : Text} {ns : List Text} :
      t.closest p a.reverse = some y → t.get y = some c → (∀ m ∈ n :: ns, IsName m) →
      (n :: ns).getLast? = some last → p = t.fullPath y ++ l :: join (n :: ns) →
      Searched t a p ((reach last c (n :: ns)).below y)
  /-- What is left is an absolute path. -/
  | again {y : List ℕ} {c : Act} {l : Char} {n : Text} {ns : List Text} :
      t.closest p a.reverse = some y → t.get y = some c → (∀ m ∈ n :: ns, IsName m) →
      l ≠ '/' → p = t.fullPath y ++ l :: buildPath (n :: ns) →
      Searched t a p ((c.findAct n).elim .nothing fun i => t.find (y ++ [i]) (buildPath (n :: ns)))

theorem find_of_none (hp : isAbsolutePath p = true)
    (h : t.closest p a.reverse = none) : t.find a p = .nothing := by
  rw [find_of_absolute hp, findUp_of_none h]

theorem find_of_append (hp : isAbsolutePath p = true)
    (h : t.closest p a.reverse = some y) {l : Char} {r : Text} (e : p = t.fullPath y ++ l :: r) :
    t.find a p = t.findChild t.find y r := by
  have hself : p ≠ t.fullPath y := by
    intro e'
    have := congrArg List.length (e.symm.trans e')
    simp at this
  obtain ⟨u, hu⟩ : ∃ u, t.findUp t.find p a.reverse = t.findAt t.find p y u := findUp_of_some h
  rw [find_of_absolute hp, hu, findAt, if_neg hself,
    if_pos (isChildOf_iff.mpr (closest_some h).2), e, getChildPath_append]

theorem find_self (hp : isAbsolutePath p = true) (hy : t.closest p a.reverse = some y)
    (e : p = t.fullPath y) : t.find a p = .act y := by
  obtain ⟨u, hu⟩ : ∃ u, t.findUp t.find p a.reverse = t.findAt t.find p y u := findUp_of_some hy
  rw [find_of_absolute hp, hu, findAt, if_pos e]

theorem get_of_closest (ha : (t.get a).isSome = true) (h : t.closest p a.reverse = some y) :
    ∃ c, t.get y = some c := by
  obtain ⟨hpre, -⟩ := closest_some h
  rw [List.reverse_reverse] at hpre
  obtain ⟨r, rfl⟩ := hpre
  rw [get_append] at ha
  rcases hy : t.get y with - | c
  · rw [hy] at ha
    cases ha
  · exact ⟨c, rfl⟩

/-- Nothing is left of the path: no act has the empty name. -/
theorem findChild_nil (ht : t.WellNamed) (hc : t.get y = some c) :
    t.findChild find y [] = .nothing := by
  have hnone : c.findAct [] = none := by
    rcases hfind : c.findAct [] with - | i
    · rfl
    · obtain ⟨d, hd, hname⟩ := findAct_getElem? hfind
      exact absurd hname (ht.isName (get_child hc hd)).1
  simp only [findChild, hc, getFirstAct, if_true, hnone]
  split_ifs <;> rfl

/-- From an act down, with a path that is absolute. -/
theorem findChild_buildPath (hload : t.Loaded) (hc : t.get y = some c) {n : Text}
    (hns : ∀ m ∈ n :: ns, IsName m) :
    t.findChild find y (buildPath (n :: ns)) =
      (c.findAct n).elim .nothing fun i => find (y ++ [i]) (buildPath (n :: ns)) := by
  have hfirst : getFirstAct (buildPath (n :: ns)) = some n := by
    have habs := isAbsolutePath_buildPath (List.cons_ne_nil n ns)
    rw [getFirstAct, if_neg (isAbsolutePath_iff.mp habs).1, split_buildPath hns]
    rfl
  rw [findChild, hc]
  by_cases hk : c.kind = .leaf
  · have hnone : c.findAct n = none := by
      rw [Act.findAct, hload y c hc hk]
      rfl
    simp [hk, hnone]
  · simp only [if_neg hk, hfirst]
    rcases c.findAct n <;> rfl

/-- **Every search is one of these.** -/
theorem searched_find (ht : t.WellNamed) (hload : t.Loaded) (ha : (t.get a).isSome = true)
    (hne : ns ≠ []) (hns : ∀ n ∈ ns, IsName n) :
    Searched t a (buildPath ns) (t.find a (buildPath ns)) := by
  have habs := isAbsolutePath_buildPath hne
  rcases hy : t.closest (buildPath ns) a.reverse with - | y
  · rw [find_of_none habs hy]
    exact .nobody hy
  · obtain ⟨c, hc⟩ := get_of_closest ha hy
    have hpre := (closest_some hy).2
    rw [fullPath, names_eq hc, buildPath_prefix_iff (ht.noSlash_parents hc) (ht.isName hc).2
      fun n hn => (hns n hn).2] at hpre
    obtain ⟨m, rest, hm, tail, rfl⟩ := hpre
    have hpath : buildPath ns = t.fullPath y ++ (tail ++ buildPath rest) := by
      rw [hm, fullPath, names_eq hc, buildPath_append, buildPath_append, List.append_assoc]
      simp [buildPath]
    have hrest : ∀ n ∈ rest, IsName n := fun n hn =>
      hns n (by rw [hm]; exact List.mem_append_right _ (List.mem_cons_of_mem _ hn))
    have hslash : '/' ∉ c.name ++ tail := (hns _ (by rw [hm]; simp)).2
    -- the name in the path may go on after that of the act, and more names may follow
    rcases tail with - | ⟨l, r⟩
    · rcases rest with - | ⟨n, rest⟩
      · have hself : buildPath ns = t.fullPath y := by
          rw [hpath]
          simp [buildPath]
        rw [find_self habs hy hself]
        exact .self hy hself
      · rw [List.nil_append, buildPath_eq_join (List.cons_ne_nil _ _)] at hpath
        rw [find_of_append habs hy hpath,
          findChild_join ht hload hc hrest (List.getLast?_eq_some_getLast (List.cons_ne_nil _ _))]
        exact .down hy hc hrest (List.getLast?_eq_some_getLast (List.cons_ne_nil _ _)) hpath
    · have hl : l ≠ '/' := fun e => hslash (e ▸ List.mem_append_right _ List.mem_cons_self)
      rcases r with - | ⟨k, r⟩
      · rcases rest with - | ⟨n, rest⟩
        · change buildPath ns = t.fullPath y ++ [l] at hpath
          rw [find_of_append habs hy hpath, findChild_nil ht hc]
          exact .cut hy hl hpath
        · rw [List.cons_append, List.nil_append] at hpath
          rw [find_of_append habs hy hpath, findChild_buildPath hload hc hrest]
          exact .again hy hc hrest hl hpath
      · have hall : ∀ n ∈ (k :: r) :: rest, IsName n := List.forall_mem_cons.mpr
          ⟨⟨List.cons_ne_nil _ _, fun h => hslash (List.mem_append_right _
            (List.mem_cons_of_mem _ h))⟩, hrest⟩
        rw [List.cons_append, append_buildPath] at hpath
        rw [find_of_append habs hy hpath,
          findChild_join ht hload hc hall (List.getLast?_eq_some_getLast (List.cons_ne_nil _ _))]
        exact .down hy hc hall (List.getLast?_eq_some_getLast (List.cons_ne_nil _ _)) hpath

/-! ### When the search is exact -/

/-- A search for an absolute path that comes to nothing: no act begins the
path, or nothing is left of it after the next character, or what is left is a
relative path and the way down can stop nowhere, or it is an absolute path and
its search from the child that it names, if there is one, comes to nothing. -/
inductive Lost (t : Act) : List ℕ → Text → Prop
  | nobody {a : List ℕ} {p : Text} : t.closest p a.reverse = none → Lost t a p
  | cut {a y : List ℕ} {p : Text} {l : Char} : t.closest p a.reverse = some y → l ≠ '/' →
      p = t.fullPath y ++ [l] → Lost t a p
  | down {a y : List ℕ} {p : Text} {c : Act} {l : Char} {n last : Text} {ns : List Text} :
      t.closest p a.reverse = some y → t.get y = some c → (∀ m ∈ n :: ns, IsName m) →
      (n :: ns).getLast? = some last → p = t.fullPath y ++ l :: join (n :: ns) →
      (∀ ms, ¬ c.Stops last (n :: ns) ms) → Lost t a p
  | again {a y : List ℕ} {p : Text} {c : Act} {l : Char} {n : Text} {ns : List Text} :
      t.closest p a.reverse = some y → t.get y = some c → (∀ m ∈ n :: ns, IsName m) →
      l ≠ '/' → p = t.fullPath y ++ l :: buildPath (n :: ns) →
      (∀ i, c.findAct n = some i → Lost t (y ++ [i]) (buildPath (n :: ns))) → Lost t a p

/-- The act whose full path it is, if there is one, and nothing otherwise. -/
def Finds (t : Act) (a : List ℕ) (p : Text) : Prop :=
  (∀ b, (t.get b).isSome = true → t.fullPath b = p → t.find a p = .act b) ∧
  ((∀ b, (t.get b).isSome = true → t.fullPath b ≠ p) → t.find a p = .nothing)

/-- What is asked of a search from the act at `a`.  The path may be that of
the closest act that begins it.  It may go on with the names of more acts, and
then the way down may not stop before the last of them.  Or the name goes on,
and then there may be no act to find, nor one that is found. -/
def Clear (t : Act) (a : List ℕ) (p : Text) : Prop :=
  ∀ y c, t.closest p a.reverse = some y → t.get y = some c →
    p = t.fullPath y ∨
    (∃ n ns last, (∀ m ∈ n :: ns, IsName m) ∧ p = t.fullPath y ++ '/' :: join (n :: ns) ∧
      (n :: ns).getLast? = some last ∧ ∀ ms, c.Stops last (n :: ns) ms → ms = n :: ns) ∨
    (∃ l r, l ≠ '/' ∧ p = t.fullPath y ++ l :: r ∧
      (∀ b, (t.get b).isSome = true → t.fullPath b ≠ p) ∧ t.Lost a p)

theorem below_eq_nothing {r : Found} : r.below a = .nothing ↔ r = .nothing := by
  cases r <;> simp [Found.below]

theorem reach_eq_nothing : reach last c ns = .nothing ↔ ∀ ms, ¬ c.Stops last ns ms := by
  rcases reach_spec last c ns with ⟨ms, b, hb, -, hstop, -⟩ | ⟨hnone, hno⟩
  · rw [hb]
    refine ⟨fun hnone => ?_, fun h => absurd hstop (h ms)⟩
    cases hnone
  · exact ⟨fun _ => hno, fun _ => hnone⟩

theorem Lost.find_eq_nothing (ht : t.WellNamed) (hload : t.Loaded) (h : t.Lost a p)
    (hp : isAbsolutePath p = true) : t.find a p = .nothing := by
  induction h with
  | nobody hy => exact find_of_none hp hy
  | @cut a y p l hy hl e =>
      rw [find_of_append hp hy e]
      rcases hc : t.get y with - | c
      · rw [findChild, hc]
      · exact findChild_nil ht hc
  | down hy hc hall hlast e hno =>
      rw [find_of_append hp hy e, findChild_join ht hload hc hall hlast, below_eq_nothing]
      exact reach_eq_nothing.mpr hno
  | @again a y p c l n ns hy hc hall hl e hlost ih =>
      rw [find_of_append hp hy e, findChild_buildPath hload hc hall]
      rcases hfind : c.findAct n with - | i
      · rfl
      · exact ih i hfind (isAbsolutePath_buildPath (List.cons_ne_nil _ _))

/-- A search comes to nothing exactly if it is lost. -/
theorem find_eq_nothing_iff (ht : t.WellNamed) (hload : t.Loaded)
    (ha : (t.get a).isSome = true) (hne : ns ≠ []) (hns : ∀ n ∈ ns, IsName n) :
    t.find a (buildPath ns) = .nothing ↔ t.Lost a (buildPath ns) := by
  refine ⟨fun hnone => ?_, fun h => h.find_eq_nothing ht hload (isAbsolutePath_buildPath hne)⟩
  -- the path gets shorter every time it is searched for again
  induction hlen : (buildPath ns).length using Nat.strong_induction_on generalizing a ns with
  | _ len ih =>
      have hs := searched_find ht hload ha hne hns
      generalize t.find a (buildPath ns) = r at hs hnone
      cases hs with
      | nobody hy => exact .nobody hy
      | self hy e => cases hnone
      | cut hy hl e => exact .cut hy hl e
      | down hy hc hall hlast e =>
          exact .down hy hc hall hlast e (reach_eq_nothing.mp (below_eq_nothing.mp hnone))
      | @again y c l n rest hy hc hall hl e =>
          refine .again hy hc hall hl e fun i hi => ?_
          obtain ⟨d, hd, -⟩ := findAct_getElem? hi
          rw [hi] at hnone
          have hshort : (buildPath (n :: rest)).length < len := by
            rw [← hlen, e, List.length_append, List.length_cons]
            omega
          exact ih _ hshort (by rw [get_child hc hd]; rfl) (List.cons_ne_nil _ _) hall hnone rfl

/-- The names on the way to what was found below an act. -/
theorem reach_eq_act (h : (reach last c ns).below y = .act b) :
    ∃ ms b', c.locate ms = some b' ∧ c.Stops last ns ms ∧ y ++ b' = b := by
  rcases reach_spec last c ns with ⟨ms, b', hb', hloc, hstop, -⟩ | ⟨hnone, -⟩
  · rw [hb'] at h
    exact ⟨ms, b', hloc, hstop, Found.act.inj h⟩
  · rw [hnone] at h
    cases h

/-- What is found has no longer path than the one that was searched for. -/
theorem length_find (ht : t.WellNamed) (hload : t.Loaded) (ha : (t.get a).isSome = true)
    (hne : ns ≠ []) (hns : ∀ n ∈ ns, IsName n) (hb : t.find a (buildPath ns) = .act b) :
    (t.fullPath b).length ≤ (buildPath ns).length := by
  induction hlen : (buildPath ns).length using Nat.strong_induction_on generalizing a ns with
  | _ len ih =>
      have hs := searched_find ht hload ha hne hns
      rw [← hlen]
      generalize t.find a (buildPath ns) = r at hs hb
      cases hs with
      | nobody hy => cases hb
      | self hy e =>
          obtain rfl := Found.act.inj hb
          rw [e]
      | cut hy hl e => cases hb
      | @down y c l n last rest hy hc hall hlast e =>
          obtain ⟨ms, b', hloc, hstop, rfl⟩ := reach_eq_act hb
          obtain ⟨-, hnames⟩ := (locate_below_iff ht hc).mp hloc
          obtain ⟨rest', hpre⟩ := hstop.1
          have hlong := congrArg List.length (buildPath_eq_join (List.cons_ne_nil n rest))
          rw [← hpre, buildPath_append, List.length_append, hpre, List.length_cons] at hlong
          rw [e, fullPath, hnames, buildPath_append, List.length_append, List.length_append,
            List.length_cons]
          exact Nat.add_le_add_left (by omega) _
      | @again y c l n rest hy hc hall hl e =>
          rcases hi : c.findAct n with - | i
          · rw [hi] at hb
            cases hb
          · obtain ⟨d, hd, -⟩ := findAct_getElem? hi
            rw [hi] at hb
            have hshort : (buildPath (n :: rest)).length < len := by
              rw [← hlen, e, List.length_append, List.length_cons]
              omega
            have := ih _ hshort (by rw [get_child hc hd]; rfl) (List.cons_ne_nil _ _) hall hb rfl
            omega

/-- No two acts have the same names on the way to them. -/
theorem eq_of_names_eq (ht : t.WellNamed) (ha : (t.get a).isSome = true)
    (hb : (t.get b).isSome = true) (h : t.names a = t.names b) : a = b := by
  obtain ⟨ns, hns⟩ := names_eq_cons t a
  have hla := (locate_eq_some_iff ht).mpr ⟨ha, hns⟩
  have hlb := (locate_eq_some_iff ht).mpr ⟨hb, h.symm.trans hns⟩
  exact Option.some.inj (hla.symm.trans hlb)

/-- The root begins every full path. -/
theorem root_prefix (t : Act) (b : List ℕ) : t.fullPath [] <+: t.fullPath b := by
  obtain ⟨ns, hns⟩ := names_eq_cons t b
  rw [fullPath, fullPath, hns, show t.name :: ns = t.names [] ++ ns from rfl, buildPath_append]
  exact List.prefix_append _ _

/-- A name in the path goes on after that of the closest act, and what is
found is not what was searched for: it must be nothing. -/
theorem finds_iff_of_cut (ht : t.WellNamed) (hload : t.Loaded) (ha : (t.get a).isSome = true)
    (hne : ns ≠ []) (hns : ∀ n ∈ ns, IsName n)
    (hy : t.closest (buildPath ns) a.reverse = some y) {l : Char} {r : Text} (hl : l ≠ '/')
    (e : buildPath ns = t.fullPath y ++ l :: r)
    (hother : ∀ b, t.find a (buildPath ns) = .act b → t.fullPath b ≠ buildPath ns) :
    t.Finds a (buildPath ns) ↔ t.Clear a (buildPath ns) := by
  have hlost := find_eq_nothing_iff ht hload ha hne hns
  constructor
  · rintro ⟨hact, hnone⟩ y' c' hy' -
    obtain rfl := Option.some.inj (hy.symm.trans hy')
    have hno : ∀ b, (t.get b).isSome = true → t.fullPath b ≠ buildPath ns :=
      fun b hb hp => hother b (hact b hb hp) hp
    exact .inr (.inr ⟨l, r, hl, e, hno, hlost.mp (hnone hno)⟩)
  · intro hclear
    obtain ⟨c, hc⟩ := get_of_closest ha hy
    rcases hclear y c hy hc with hself | ⟨n, rest, last, -, e', -⟩ | ⟨-, -, -, -, hno, hlost'⟩
    · have := congrArg List.length (hself.symm.trans e)
      simp at this
    · have := List.append_cancel_left (e.symm.trans e')
      exact absurd (List.cons.inj this).1 hl
    · exact ⟨fun b hb hp => absurd hp (hno b hb), fun _ => hlost.mpr hlost'⟩

/-- The acts whose names begin with those on the way to `y` are below it. -/
theorem names_eq_append_iff (ht : t.WellNamed) (hc : t.get y = some c)
    (hb : (t.get b).isSome = true) :
    t.names b = t.names y ++ ms ↔ ∃ b', c.locate ms = some b' ∧ y ++ b' = b := by
  constructor
  · intro h
    obtain ⟨tl, htl⟩ := names_eq_cons t y
    have hly := (locate_eq_some_iff ht).mpr ⟨by rw [hc]; rfl, htl⟩
    have hlb : t.locate (tl ++ ms) = some b :=
      (locate_eq_some_iff ht).mpr ⟨hb, by rw [h, htl]; rfl⟩
    rw [locate_append, hly, Option.bind_some, hc, Option.bind_some] at hlb
    exact Option.map_eq_some_iff.mp hlb
  · rintro ⟨b', hb', rfl⟩
    exact ((locate_below_iff ht hc).mp hb').2

/-- The path goes on with names of acts below the closest act: the way down
must not stop before the last of them. -/
theorem finds_iff_of_down (ht : t.WellNamed) (hns : ∀ n ∈ ns, IsName n)
    (hc : t.get y = some c) {n : Text} {rest : List Text} (hall : ∀ m ∈ n :: rest, IsName m)
    (hlast : (n :: rest).getLast? = some last)
    (e : buildPath ns = t.fullPath y ++ '/' :: join (n :: rest))
    (hfind : t.find a (buildPath ns) = (reach last c (n :: rest)).below y) :
    t.Finds a (buildPath ns) ↔ ∀ ms, c.Stops last (n :: rest) ms → ms = n :: rest := by
  have hnames : ns = t.names y ++ n :: rest := by
    refine buildPath_injective hns (List.forall_mem_append.mpr ⟨ht.names hc, hall⟩) ?_
    rw [e, buildPath_append, ← buildPath_eq_join (List.cons_ne_nil _ _)]
    rfl
  have hat : ∀ b, (t.get b).isSome = true → (t.fullPath b = buildPath ns ↔
      ∃ b', c.locate (n :: rest) = some b' ∧ y ++ b' = b) := by
    intro b hb
    rw [fullPath_eq_iff ht hns hb, hnames]
    exact names_eq_append_iff ht hc hb
  rcases reach_spec last c (n :: rest) with ⟨ms, b, hb, hloc, hstop, hfirst⟩ | ⟨hnone, hno⟩
  · rw [hb] at hfind
    change t.find a (buildPath ns) = .act (y ++ b) at hfind
    obtain ⟨hget, hms⟩ := (locate_below_iff ht hc).mp hloc
    constructor
    · rintro ⟨hact, hnothing⟩ ms' hms'
      -- the act that was found is the one at the end of the path
      have hend : ms = n :: rest := by
        rcases hl : c.locate (n :: rest) with - | b'
        · rw [hnothing fun d hd => by simp [hat d hd, hl]] at hfind
          cases hfind
        · obtain ⟨hget', hms'⟩ := (locate_below_iff ht hc).mp hl
          rw [hact _ hget' ((hat _ hget').mpr ⟨b', hl, rfl⟩)] at hfind
          obtain hsame := Found.act.inj hfind
          rw [hsame, hms] at hms'
          exact List.append_cancel_left hms'
      rw [hend] at hfirst
      exact hms'.1.eq_of_length_le (hfirst ms' hms').length_le
    · intro hall'
      obtain rfl := hall' ms hstop
      refine ⟨fun d hd hp => ?_, fun hnot => ?_⟩
      · obtain ⟨b', hb', rfl⟩ := (hat d hd).mp hp
        rw [hfind, Option.some.inj (hloc.symm.trans hb')]
      · exact absurd ((hat _ hget).mpr ⟨b, hloc, rfl⟩) (hnot _ hget)
  · rw [hnone] at hfind
    refine ⟨fun _ ms hms => absurd hms (hno ms), fun _ => ⟨fun d hd hp => ?_, fun _ => hfind⟩⟩
    obtain ⟨b', hb', -⟩ := (hat d hd).mp hp
    exact absurd ⟨List.prefix_refl _, hlast, by rw [hb']; rfl⟩ (hno (n :: rest))

theorem clear_iff_of_down (hy : t.closest p a.reverse = some y) (hc : t.get y = some c)
    {n : Text} (hall : ∀ m ∈ n :: ns, IsName m) (hlast : (n :: ns).getLast? = some last)
    (e : p = t.fullPath y ++ '/' :: join (n :: ns)) :
    t.Clear a p ↔ ∀ ms, c.Stops last (n :: ns) ms → ms = n :: ns := by
  constructor
  · intro hclear
    rcases hclear y c hy hc with hself | ⟨n', ns', last', hall', e', hlast', h⟩ | ⟨l, r, hl, e', -⟩
    · have := congrArg List.length (hself.symm.trans e)
      simp at this
    · have hjoin := (List.cons.inj (List.append_cancel_left (e.symm.trans e'))).2
      have hsame : n :: ns = n' :: ns' := by rw [← split_join hall, hjoin, split_join hall']
      obtain ⟨rfl, rfl⟩ := List.cons.inj hsame
      obtain rfl := Option.some.inj (hlast.symm.trans hlast')
      exact h
    · have := List.append_cancel_left (e'.symm.trans e)
      exact absurd (List.cons.inj this).1 hl
  · intro h y' c' hy' hc'
    obtain rfl := Option.some.inj (hy.symm.trans hy')
    obtain rfl := Option.some.inj (hc.symm.trans hc')
    exact .inr (.inl ⟨n, ns, last, hall, e, hlast, h⟩)

/-- **When a search for an absolute path is exact.** -/
theorem find_exact_iff (ht : t.WellNamed) (hload : t.Loaded) (ha : (t.get a).isSome = true)
    (hne : ns ≠ []) (hns : ∀ n ∈ ns, IsName n) :
    t.Finds a (buildPath ns) ↔ t.Clear a (buildPath ns) := by
  have hs := searched_find ht hload ha hne hns
  generalize hr : t.find a (buildPath ns) = r at hs
  cases hs with
  | nobody hy =>
      have hno : ∀ b, t.fullPath b ≠ buildPath ns := fun b hb =>
        not_prefix_of_none hy (hb ▸ root_prefix t b)
      refine ⟨fun _ y c hy' => ?_, fun _ => ⟨fun b _ hb => absurd hb (hno b), fun _ => hr⟩⟩
      rw [hy] at hy'
      cases hy'
  | @self y hy e =>
      obtain ⟨c, hc⟩ := get_of_closest ha hy
      have hget : (t.get y).isSome = true := by rw [hc]; rfl
      refine ⟨fun _ y' c' hy' _ => .inl ?_, fun _ => ⟨fun b hb hp => ?_, fun hnot => ?_⟩⟩
      · rwa [← Option.some.inj (hy.symm.trans hy')]
      · have hnames := (fullPath_eq_iff ht hns hb).mp hp
        rw [hr, eq_of_names_eq ht hget hb]
        rw [hnames]
        exact (fullPath_eq_iff ht hns hget).mp e.symm
      · exact absurd e.symm (hnot y hget)
  | cut hy hl e =>
      exact finds_iff_of_cut ht hload ha hne hns hy hl e fun b hb => by rw [hr] at hb; cases hb
  | @down y c l n last rest hy hc hall hlast e =>
      by_cases hl : l = '/'
      · subst hl
        rw [finds_iff_of_down ht hns hc hall hlast e hr, clear_iff_of_down hy hc hall hlast e]
      · refine finds_iff_of_cut ht hload ha hne hns hy hl e fun b hb hp => ?_
        -- an act below `y` has a delimiter where the path has the character
        rw [hr] at hb
        obtain ⟨ms, b', hloc, hstop, rfl⟩ := reach_eq_act hb
        obtain ⟨-, hnames⟩ := (locate_below_iff ht hc).mp hloc
        rw [fullPath, hnames, buildPath_append, e] at hp
        have hrest := List.append_cancel_left hp
        cases ms with
        | nil => cases hstop.2.1
        | cons m ms => exact hl (List.cons.inj hrest).1.symm
  | @again y c l n rest hy hc hall hl e =>
      refine finds_iff_of_cut ht hload ha hne hns hy hl e fun b hb hp => ?_
      rw [hr] at hb
      rcases hi : c.findAct n with - | i
      · rw [hi] at hb
        cases hb
      · obtain ⟨d, hd, -⟩ := findAct_getElem? hi
        rw [hi] at hb
        have := length_find ht hload (by rw [get_child hc hd]; rfl) (List.cons_ne_nil _ _) hall hb
        rw [hp, e, List.length_append, List.length_cons] at this
        omega

/-! ### In every run a leaf has no acts -/

theorem loaded_iff :
    t.Loaded ↔ (t.kind = .leaf → t.acts = []) ∧ ∀ c ∈ t.acts, c.Loaded := by
  refine (forall_get_iff (P := fun c => c.kind = .leaf → c.acts = [])).trans
    (and_congr_right fun _ => ⟨fun h c hc => ?_, fun h i c hc => ?_⟩)
  · obtain ⟨i, hi⟩ := List.mem_iff_getElem?.mp hc
    exact h i c hi
  · exact h c (List.mem_of_getElem? hc)

theorem loaded_create (s : Spec) : s.create.Loaded := by
  obtain ⟨k, n, fl⟩ := s
  exact loaded_iff.mpr ⟨fun _ => rfl, List.forall_mem_nil _⟩

theorem loaded_launchActs {k : ActKind} {cur off : ℕ} {fl : List Spec}
    (hfl : ∀ s ∈ fl, s.launch.Loaded) : ∀ c ∈ launchActs k cur off fl, c.Loaded := by
  intro c hc
  obtain ⟨i, hi⟩ := List.mem_iff_getElem?.mp hc
  rw [getElem?_launchActs, Option.map_eq_some_iff] at hi
  obtain ⟨s, hs, rfl⟩ := hi
  split
  · exact hfl s (List.mem_of_getElem? hs)
  · exact loaded_create s

theorem loaded_launch (s : Spec) : s.launch.Loaded := by
  induction s using Spec.induct with
  | h k n fl ih =>
      rw [launch_mk]
      by_cases hk : k = .leaf
      · rw [if_pos hk]
        exact loaded_iff.mpr ⟨fun _ => rfl, List.forall_mem_nil _⟩
      · rw [if_neg hk]
        exact loaded_iff.mpr ⟨fun e => absurd e hk, loaded_launchActs ih⟩

theorem Loaded.activate (h : t.Loaded) : t.activate.Loaded := by
  induction t using Act.induct with
  | h k n fl act cur as ih =>
      obtain ⟨hleaf, hacts⟩ := loaded_iff.mp h
      cases act with
      | true => rwa [activate_of_active rfl]
      | false =>
          rw [activate_mk]
          by_cases hk : k = .leaf
          · rw [if_pos hk]
            exact loaded_iff.mpr ⟨hleaf, hacts⟩
          · rw [if_neg hk]
            refine loaded_iff.mpr ⟨fun e => absurd e hk, fun c hc => ?_⟩
            rcases List.mem_append.mp hc with hc | hc
            · obtain ⟨i, hi⟩ := List.mem_iff_getElem?.mp hc
              rw [getElem?_activateActs, Option.map_eq_some_iff] at hi
              obtain ⟨d, hd, rfl⟩ := hi
              have hmem := List.mem_of_getElem? hd
              split
              · exact ih d hmem (hacts d hmem)
              · exact hacts d hmem
            · exact loaded_launchActs (fun s _ => loaded_launch s) c hc

theorem Loaded.deactivate (h : t.Loaded) : t.deactivate.Loaded := by
  induction t using Act.induct with
  | h k n fl act cur as ih =>
      obtain ⟨hleaf, hacts⟩ := loaded_iff.mp h
      cases act with
      | false => rwa [deactivate_of_not_active rfl]
      | true =>
          rw [deactivate_mk]
          refine loaded_iff.mpr ⟨fun hk => ?_, fun c hc => ?_⟩
          · have : as = [] := hleaf hk
            rw [this]
            simp [acts, deactivateActs]
          · obtain ⟨i, hi⟩ := List.mem_iff_getElem?.mp hc
            change (deactivateActs k cur 0 as)[i]? = some c at hi
            rw [getElem?_deactivateActs, Option.map_eq_some_iff] at hi
            obtain ⟨d, hd, rfl⟩ := hi
            have hmem := List.mem_of_getElem? hd
            split
            · exact ih d hmem (hacts d hmem)
            · exact hacts d hmem

/-- Changing one of the acts of an act. -/
theorem Loaded.modifyAct {u : Act} {i : ℕ} {f : Act → Act} (h : t.Loaded)
    (hf : ∀ {c : Act}, c.Loaded → (f c).Loaded) (hkind : u.kind = t.kind)
    (hu : u.acts = t.acts.modify i f) : u.Loaded := by
  obtain ⟨hleaf, hacts⟩ := loaded_iff.mp h
  refine loaded_iff.mpr ⟨fun hk => ?_, fun c hc => ?_⟩
  · rw [hu, hleaf (hkind ▸ hk)]
    exact List.modify_nil ..
  · rw [hu] at hc
    obtain ⟨j, hj⟩ := List.mem_iff_getElem?.mp hc
    rw [List.getElem?_modify, Option.map_eq_map, Option.map_eq_some_iff] at hj
    obtain ⟨d, hd, rfl⟩ := hj
    have hload := hacts d (List.mem_of_getElem? hd)
    split
    · exact hf hload
    · exact hload

theorem Loaded.modify {f : Act → Act} (h : t.Loaded)
    (hf : ∀ {c : Act}, c.Loaded → (f c).Loaded) (a : List ℕ) : (t.modify f a).Loaded := by
  induction a generalizing t with
  | nil => exact hf h
  | cons i a ih => exact h.modifyAct (fun hc => ih hc) rfl rfl

theorem Loaded.leaveCurrent (h : t.Loaded) : t.leaveCurrent.Loaded :=
  h.modifyAct Loaded.deactivate rfl rfl

theorem Loaded.enter (h : t.Loaded) (i : ℕ) : (t.enter i).Loaded :=
  h.modifyAct Loaded.activate rfl rfl

theorem Loaded.advance (h : t.Loaded) : t.advance.Loaded := by
  unfold Act.advance
  dsimp only
  split
  · exact h.leaveCurrent.enter _
  · exact h.leaveCurrent

end Act

namespace Bot

variable {s s' : Bot} {fl : List Spec}

theorem loaded_handle (h : s.root.Loaded) (e : Effect) : (s.handle e).root.Loaded := by
  have hchange : ∀ h' safe f, (∀ {c : Act}, c.Loaded → (f c).Loaded) →
      (s.change h' safe f).root.Loaded := by
    intro h' safe f hf
    unfold change
    split
    · exact h
    · split
      · exact h.modify hf h'
      · exact h
  cases e with
  | ignored => exact h
  | threw => exact h
  | select h' i => exact hchange _ _ _ fun hc => hc.leaveCurrent.enter i
  | advance h' => exact hchange _ _ _ Act.Loaded.advance
  | stop => exact h.deactivate

theorem loaded_step {l : Tick} (h : s.root.Loaded) (hstep : s.step l = some s') :
    s'.root.Loaded := by
  cases l with
  | update =>
      simp only [step, Option.ite_none_right_eq_some, Option.some.injEq] at hstep
      obtain ⟨-, rfl⟩ := hstep
      exact h
  | go =>
      simp only [step] at hstep
      split at hstep
      · cases hstep
      · obtain rfl := Option.some.inj hstep
        rw [root_go]
        exact h
  | raise sig =>
      simp only [step] at hstep
      split at hstep
      · simp only [Option.ite_none_right_eq_some, Option.some.injEq] at hstep
        obtain ⟨-, rfl⟩ := hstep
        exact loaded_handle h _
      · cases hstep

/-- **Every tree that a bot comes to is loaded.** -/
theorem loaded_run {ls : List Tick} (h : runSteps step (start fl) ls = some s) : s.root.Loaded :=
  runSteps_invariant (I := fun s => s.root.Loaded) (fun hs h => loaded_step hs h)
    (Act.loaded_launch _) h

/-- The leaf "x" finds "/flow/b". -/
theorem finds_b : (start twoNames).root.Finds [0, 0] ['/', 'f', 'l', 'o', 'w', '/', 'b'] ∧
    (start twoNames).root.find [0, 0] ['/', 'f', 'l', 'o', 'w', '/', 'b'] = .act [2] := by
  have hexact : (start twoNames).root.Finds [0, 0] (Paths.buildPath [['f', 'l', 'o', 'w'], ['b']]) ↔
      (start twoNames).root.Clear [0, 0] (Paths.buildPath [['f', 'l', 'o', 'w'], ['b']]) :=
    Act.find_exact_iff wellNamed_twoNames (Act.loaded_launch _) rfl (by decide) (by decide)
  refine ⟨hexact.mpr fun y c hy hc => .inr (.inl ?_), by decide +kernel⟩
  obtain rfl : y = [] := by
    have : (start twoNames).root.closest ['/', 'f', 'l', 'o', 'w', '/', 'b'] [0, 0] = some [] := by
      decide +kernel
    exact Option.some.inj (hy.symm.trans this)
  refine ⟨['b'], [], ['b'], by decide, by decide +kernel, rfl, fun ms hms => ?_⟩
  obtain ⟨ms', rfl⟩ := hms.exists_cons
  rw [List.prefix_nil.mp (List.cons_prefix_cons.mp hms.1).2]

/-- The flow is asked for "/flow/a/a", which is not there, and finds
"/flow/a"; the leaf "x" is asked for "/flow/ab", which is there, and finds
nothing. -/
theorem find_inexact : (start twoNames).root.WellNamed ∧
    (start twoNames).root.fullPath [0] = ['/', 'f', 'l', 'o', 'w', '/', 'a'] ∧
    (start twoNames).root.find [] ['/', 'f', 'l', 'o', 'w', '/', 'a', '/', 'a'] = .act [0] ∧
    ¬ (start twoNames).root.Finds [] ['/', 'f', 'l', 'o', 'w', '/', 'a', '/', 'a'] ∧
    (start twoNames).root.fullPath [1] = ['/', 'f', 'l', 'o', 'w', '/', 'a', 'b'] ∧
    (start twoNames).root.find [0, 0] ['/', 'f', 'l', 'o', 'w', '/', 'a', 'b'] = .nothing ∧
    ¬ (start twoNames).root.Finds [0, 0] ['/', 'f', 'l', 'o', 'w', '/', 'a', 'b'] := by
  have ha : (start twoNames).root.fullPath [0] = ['/', 'f', 'l', 'o', 'w', '/', 'a'] := by
    decide +kernel
  have haa : (start twoNames).root.find [] ['/', 'f', 'l', 'o', 'w', '/', 'a', '/', 'a'] =
      .act [0] := by decide +kernel
  have hab : (start twoNames).root.fullPath [1] = ['/', 'f', 'l', 'o', 'w', '/', 'a', 'b'] := by
    decide +kernel
  have hx : (start twoNames).root.find [0, 0] ['/', 'f', 'l', 'o', 'w', '/', 'a', 'b'] =
      .nothing := by decide +kernel
  refine ⟨wellNamed_twoNames, ha, haa, fun hfinds => ?_, hab, hx, fun hfinds => ?_⟩
  · -- an act with the path would have been found, and "/flow/a" was
    have hnone := hfinds.2 fun b hb hp => by
      have hact := hfinds.1 b hb hp
      rw [haa] at hact
      rw [← Found.act.inj hact, ha] at hp
      exact absurd hp (by decide)
    rw [haa] at hnone
    cases hnone
  · have hact := hfinds.1 [1] rfl hab
    rw [hx] at hact
    cases hact

end Bot

end Play
