import Linksurf.UrlParse
import Mathlib.Data.List.DropRight

/-!
# Names of nodes

`visualization/utils.py`: the name of a URL's node, which is its path, and the
names that could hold a name. Without empty segments a name holds another one
exactly if its directory form is a proper prefix of it.
-/
namespace Linksurf.Visualization

open UrlParse

abbrev Name := List Char

def ROOT_NODE : Name := ['/']

/-- `node_name`, `none` where `urlsplit` raises. -/
def nodeName (valid : List Char → Bool) (address : List Char) : Option Name :=
  (urlsplit valid address).map (fun parts => if parts.path = [] then ROOT_NODE else parts.path)

/-- `str.rstrip("/")`. -/
def rstrip (s : Name) : Name := s.rdropWhile (· = '/')

/-- `stripped[:stripped.rfind("/") + 1]`. -/
def directoryOf (stripped : Name) : Name := stripped.rdropWhile (· ≠ '/')

/-- The loop of `ancestor_names`, which shortens `current` on every round. -/
def ancestorLoop : Nat → Name → List Name
  | 0, _ => []
  | fuel + 1, current =>
    let stripped := rstrip current
    if stripped = [] then []
    else
      let directory := directoryOf stripped
      if directory = ROOT_NODE then []
      else directory :: rstrip directory :: ancestorLoop fuel directory

def ancestorNames (name : Name) : List Name := ancestorLoop name.length name ++ [ROOT_NODE]

example : ancestorNames "/products/nike/shoes".toList =
    ["/products/nike/", "/products/nike", "/products/", "/products", "/"].map String.toList := by decide

/-- The directory form of a name. -/
def prefixOf (name : Name) : Name := if name.getLast? = some '/' then name else name ++ ['/']

/-! ## Stripping -/

theorem rstrip_isPrefix (s : Name) : rstrip s <+: s := List.rdropWhile_prefix _ _

theorem directoryOf_isPrefix (s : Name) : directoryOf s <+: s := List.rdropWhile_prefix _ _

/-- A name that does not end in a slash stands. -/
theorem rstrip_eq_self {s : Name} (h : s.getLast? ≠ some '/') : rstrip s = s := by
  apply List.rdropWhile_eq_self_iff.mpr
  intro hne
  simpa [List.getLast?_eq_some_getLast hne] using h

theorem getLast_rstrip (s : Name) : (rstrip s).getLast? ≠ some '/' := by
  by_cases hne : rstrip s = []
  · simp [hne]
  · have hlast : ¬ decide ((rstrip s).getLast hne = '/') = true := List.rdropWhile_last_not _ s hne
    rw [List.getLast?_eq_some_getLast hne]
    simpa using hlast

theorem getLast_directoryOf {s : Name} (hne : directoryOf s ≠ []) : (directoryOf s).getLast? = some '/' := by
  have hlast : ¬ decide ((directoryOf s).getLast hne ≠ '/') = true := List.rdropWhile_last_not _ s hne
  rw [List.getLast?_eq_some_getLast hne]
  simpa using hlast

/-- The directory is followed by one segment. -/
theorem directoryOf_append (s : Name) : ∃ seg, s = directoryOf s ++ seg ∧ '/' ∉ seg := by
  refine ⟨s.rtakeWhile (· ≠ '/'), List.rdropWhile_append_rtakeWhile.symm, fun hmem => ?_⟩
  simpa using List.mem_rtakeWhile_imp hmem

theorem directoryOf_length {s : Name} (hne : s ≠ []) (hlast : s.getLast? ≠ some '/') :
    (directoryOf s).length < s.length := by
  obtain ⟨seg, hs, -⟩ := directoryOf_append s
  apply lt_of_le_of_ne (directoryOf_isPrefix s).length_le
  intro hlength
  have hsame : directoryOf s = s := (directoryOf_isPrefix s).eq_of_length hlength
  have hdir := getLast_directoryOf (hsame.symm ▸ hne : directoryOf s ≠ [])
  rw [hsame] at hdir
  exact hlast hdir

/-! ## Ancestors are shorter -/

theorem mem_ancestorLoop_length {fuel : Nat} {current a : Name} (h : a ∈ ancestorLoop fuel current) :
    a.length < current.length := by
  induction fuel generalizing current with
  | zero => cases h
  | succ fuel ih =>
    simp only [ancestorLoop] at h
    split at h
    · cases h
    · rename_i hne
      have hlt : (directoryOf (rstrip current)).length < current.length :=
        lt_of_lt_of_le (directoryOf_length hne (getLast_rstrip current)) (rstrip_isPrefix current).length_le
      split at h
      · cases h
      · obtain rfl | h := List.mem_cons.mp h
        · exact hlt
        · obtain rfl | h := List.mem_cons.mp h
          · exact lt_of_le_of_lt (rstrip_isPrefix _).length_le hlt
          · exact (ih h).trans hlt

theorem mem_ancestorNames {name a : Name} (h : a ∈ ancestorNames name) : a = ROOT_NODE ∨ a.length < name.length := by
  obtain h | h := List.mem_append.mp h
  · exact .inr (mem_ancestorLoop_length h)
  · exact .inl (List.mem_singleton.mp h)

theorem root_mem_ancestorNames (name : Name) : ROOT_NODE ∈ ancestorNames name :=
  List.mem_append_right _ (List.mem_singleton_self _)

/-! ## Directory forms -/

theorem prefixOf_getLast (name : Name) : (prefixOf name).getLast? = some '/' := by
  unfold prefixOf
  split
  · assumption
  · simp

theorem prefix_prefixOf (name : Name) : name <+: prefixOf name := by
  unfold prefixOf
  split
  · exact List.prefix_refl _
  · exact List.prefix_append _ _

/-! ## Directories of a name -/

/-- A prefix that ends in a slash and is followed by another character. -/
def IsDirectory (p name : Name) : Prop := p.getLast? = some '/' ∧ ∃ c rest, c ≠ '/' ∧ name = p ++ c :: rest

theorem rstrip_append (s : Name) : ∃ slashes, s = rstrip s ++ slashes ∧ ∀ c ∈ slashes, c = '/' := by
  refine ⟨s.rtakeWhile (· = '/'), List.rdropWhile_append_rtakeWhile.symm, fun c hc => ?_⟩
  simpa using List.mem_rtakeWhile_imp hc

/-- Trailing slashes are stripped, whatever their number. -/
theorem rstrip_append_slashes {s slashes : Name} (hs : s.getLast? ≠ some '/') (hslashes : ∀ c ∈ slashes, c = '/') :
    rstrip (s ++ slashes) = s := by
  induction slashes using List.reverseRecOn with
  | nil => rw [List.append_nil, rstrip_eq_self hs]
  | append_singleton init c ih =>
    have hc : c = '/' := hslashes c (by simp)
    have hinit : rstrip (s ++ init ++ [c]) = rstrip (s ++ init) := List.rdropWhile_concat_pos _ _ _ (by simpa using hc)
    rw [← List.append_assoc, hinit]
    exact ih (fun c hc => hslashes c (List.mem_append_left _ hc))

/-- The directories of a name are the one its last segment is in, and the
directories of that. -/
theorem isDirectory_step {name p : Name} (hne : rstrip name ≠ []) :
    IsDirectory p name ↔ p ≠ [] ∧ p = directoryOf (rstrip name) ∨ IsDirectory p (directoryOf (rstrip name)) := by
  obtain ⟨slashes, hname, hslashes⟩ := rstrip_append name
  obtain ⟨seg, hseg, hslash⟩ := directoryOf_append (rstrip name)
  have hshort := directoryOf_length hne (getLast_rstrip name)
  have hend : directoryOf (rstrip name) ≠ [] → (directoryOf (rstrip name)).getLast? = some '/' := getLast_directoryOf
  rw [hseg] at hname
  generalize directoryOf (rstrip name) = dir at *
  constructor
  · rintro ⟨hlast, c, rest, hc, hp⟩
    have hpne : p ≠ [] := by
      rintro rfl
      cases hlast
    rw [hname, List.append_assoc] at hp
    obtain ⟨r, hr, hrest⟩ | ⟨r, hr, hrest⟩ := List.append_eq_append_iff.mp hp
    · -- the prefix is longer than the directory, so it ends in the last segment or after it
      by_cases hnil : r = []
      · rw [hnil, List.append_nil] at hr
        exact .inl ⟨hpne, hr⟩
      · rw [hr, List.getLast?_append_of_ne_nil _ hnil] at hlast
        obtain ⟨t, -, ht⟩ | ⟨t, ht, -⟩ := List.append_eq_append_iff.mp hrest
        · exact absurd (hslashes c (by rw [ht]; simp)) hc
        · exact absurd (by rw [ht]; exact List.mem_append_left _ (List.mem_of_getLast? hlast)) hslash
    · cases r with
      | nil => exact .inl ⟨hpne, by simpa using hr.symm⟩
      | cons d r =>
        obtain ⟨rfl, -⟩ := List.cons.inj hrest
        exact .inr ⟨hlast, c, r, hc, hr⟩
  · rintro (⟨hpne, rfl⟩ | ⟨hlast, c, rest, hc, hdir⟩)
    · cases seg with
      | nil =>
        rw [hseg, List.append_nil] at hshort
        exact absurd hshort (Nat.lt_irrefl _)
      | cons c seg =>
        refine ⟨hend hpne, c, seg ++ slashes, ?_, by rw [hname, List.append_assoc, List.cons_append]⟩
        rintro rfl
        exact hslash List.mem_cons_self
    · exact ⟨hlast, c, rest ++ (seg ++ slashes), hc, by rw [hname, hdir]; simp⟩

theorem not_isDirectory_nil (p : Name) : ¬ IsDirectory p [] := by
  rintro ⟨-, c, rest, -, h⟩
  simp at h

theorem not_isDirectory_root (p : Name) : ¬ IsDirectory p ROOT_NODE := by
  rintro ⟨hlast, c, rest, hc, h⟩
  cases p with
  | nil => cases hlast
  | cons d p => simp [ROOT_NODE] at h

/-- The loop names the directories and their page forms, besides the empty name
and the root. -/
theorem mem_ancestorLoop {fuel : Nat} {name a : Name} (hfuel : name.length ≤ fuel) (ha : a ≠ []) (hroot : a ≠ ROOT_NODE) :
    a ∈ ancestorLoop fuel name ↔ ∃ p, IsDirectory p name ∧ (a = p ∨ a = rstrip p) := by
  induction fuel generalizing name with
  | zero =>
    obtain rfl : name = [] := List.eq_nil_of_length_eq_zero (by omega)
    exact iff_of_false List.not_mem_nil (fun ⟨p, hp, _⟩ => not_isDirectory_nil p hp)
  | succ fuel ih =>
    simp only [ancestorLoop]
    split
    · rename_i hstripped
      apply iff_of_false List.not_mem_nil
      rintro ⟨p, ⟨-, c, rest, hc, hname⟩, -⟩
      obtain ⟨slashes, hall, hslashes⟩ := rstrip_append name
      rw [hstripped, List.nil_append] at hall
      exact hc (hslashes c (by rw [← hall, hname]; simp))
    · rename_i hne
      simp only [isDirectory_step hne]
      split
      · rename_i hdir
        rw [hdir]
        apply iff_of_false List.not_mem_nil
        rintro ⟨p, ⟨-, rfl⟩ | hp, he⟩
        · obtain he | he := he
          · exact hroot he
          · exact ha he
        · exact not_isDirectory_root p hp
      · have hlt : (directoryOf (rstrip name)).length < name.length :=
          lt_of_lt_of_le (directoryOf_length hne (getLast_rstrip name)) (rstrip_isPrefix name).length_le
        rw [List.mem_cons, List.mem_cons, ih (by omega)]
        generalize directoryOf (rstrip name) = dir
        constructor
        · rintro (rfl | rfl | ⟨p, hp, he⟩)
          · exact ⟨a, .inl ⟨ha, rfl⟩, .inl rfl⟩
          · refine ⟨dir, .inl ⟨?_, rfl⟩, .inr rfl⟩
            rintro rfl
            exact ha rfl
          · exact ⟨p, .inr hp, he⟩
        · rintro ⟨p, ⟨-, rfl⟩ | hp, he⟩
          · obtain rfl | rfl := he
            · exact .inl rfl
            · exact .inr (.inl rfl)
          · exact .inr (.inr ⟨p, hp, he⟩)

theorem mem_ancestorNames_of_ne_root {name a : Name} (hroot : a ≠ ROOT_NODE) :
    a ∈ ancestorNames name ↔ a ∈ ancestorLoop name.length name := by
  rw [ancestorNames, List.mem_append, List.mem_singleton]
  exact or_iff_left hroot

/-- The directory form of `a` is followed by one more slash in `name`, and `a` is
that form itself or nothing but slashes follows. -/
def Overshoots (a name : Name) : Prop :=
  ∃ rest, name = prefixOf a ++ '/' :: rest ∧ (a.getLast? = some '/' ∨ ∀ c ∈ rest, c = '/')

/-- A name that ends in a slash holds what has it as a directory. -/
theorem slashed_holds {name a : Name} (hlast : a.getLast? = some '/') :
    (∃ p, IsDirectory p name ∧ (a = p ∨ a = rstrip p)) ↔ prefixOf a <+: name ∧ name ≠ prefixOf a ∧ ¬ Overshoots a name := by
  have hform : prefixOf a = a := if_pos hlast
  rw [Overshoots, hform]
  constructor
  · rintro ⟨p, hp, rfl | rfl⟩
    · obtain ⟨-, c, rest, hc, rfl⟩ := hp
      refine ⟨List.prefix_append _ _, by simp, ?_⟩
      rintro ⟨rest', he, -⟩
      exact hc (List.cons.inj (List.append_cancel_left he)).1
    · exact absurd hlast (getLast_rstrip p)
  · rintro ⟨⟨r, rfl⟩, hne, hover⟩
    cases r with
    | nil => simp at hne
    | cons c rest =>
      refine ⟨a, ⟨hlast, c, rest, ?_, rfl⟩, .inl rfl⟩
      rintro rfl
      exact hover ⟨rest, rfl, .inl hlast⟩

/-- A name that does not end in a slash holds what has a directory of that page form. -/
theorem page_holds {name a : Name} (hlast : a.getLast? ≠ some '/') :
    (∃ p, IsDirectory p name ∧ (a = p ∨ a = rstrip p)) ↔ prefixOf a <+: name ∧ name ≠ prefixOf a ∧ ¬ Overshoots a name := by
  have hform : prefixOf a = a ++ ['/'] := if_neg hlast
  rw [Overshoots, hform]
  constructor
  · rintro ⟨p, ⟨hp, c, rest, hc, rfl⟩, rfl | rfl⟩
    · exact absurd hp hlast
    · obtain ⟨slashes, hsplit, hslashes⟩ := rstrip_append p
      cases slashes with
      | nil =>
        rw [hsplit, List.append_nil] at hp
        exact absurd hp hlast
      | cons d slashes =>
        obtain rfl : d = '/' := hslashes d List.mem_cons_self
        generalize rstrip p = a at *
        subst hsplit
        refine ⟨⟨slashes ++ c :: rest, by simp⟩, by simp, ?_⟩
        rintro ⟨rest', he, hend | hall⟩
        · exact hlast hend
        · have htail : slashes ++ c :: rest = '/' :: rest' := by simpa using he
          have hmem : c ∈ '/' :: rest' := by
            rw [← htail]
            simp
          obtain rfl | hmem := List.mem_cons.mp hmem
          · exact hc rfl
          · exact hc (hall c hmem)
  · rintro ⟨⟨r, rfl⟩, hne, hover⟩
    have hmore : r.dropWhile (· = '/') ≠ [] := by
      intro hnil
      rw [List.dropWhile_eq_nil_iff] at hnil
      cases r with
      | nil => simp at hne
      | cons d r =>
        obtain rfl : d = '/' := by simpa using hnil d List.mem_cons_self
        exact hover ⟨r, rfl, .inr (fun c hc => by simpa using hnil c (List.mem_cons_of_mem _ hc))⟩
    have hslashes : ∀ c ∈ '/' :: r.takeWhile (· = '/'), c = '/' := by
      intro c hc
      obtain rfl | hc := List.mem_cons.mp hc
      · rfl
      · simpa using List.mem_takeWhile_imp hc
    obtain ⟨c, rest, hrest⟩ := List.exists_cons_of_ne_nil hmore
    refine ⟨a ++ '/' :: r.takeWhile (· = '/'), ⟨?_, c, rest, ?_, ?_⟩, .inr (rstrip_append_slashes hlast hslashes).symm⟩
    · rw [List.getLast?_append_of_ne_nil _ (List.cons_ne_nil _ _), List.getLast?_eq_some_getLast (List.cons_ne_nil _ _)]
      rw [hslashes _ (List.getLast_mem _)]
    · have hhead := List.head_dropWhile_not (· = '/') hmore
      simpa [hrest] using hhead
    · rw [← hrest]
      simp

/-- A stored name holds another one if its directory form is a proper prefix of
it that is not overshot. -/
theorem mem_ancestorNames_iff_overshoots {name a : Name} (ha : a ≠ []) (hroot : a ≠ ROOT_NODE) :
    a ∈ ancestorNames name ↔ prefixOf a <+: name ∧ name ≠ prefixOf a ∧ ¬ Overshoots a name := by
  rw [mem_ancestorNames_of_ne_root hroot, mem_ancestorLoop (Nat.le_refl _) ha hroot]
  by_cases hlast : a.getLast? = some '/'
  · exact slashed_holds hlast
  · exact page_holds hlast

/-! ## Names without empty segments -/

/-- No segment is empty, apart from the last one after a trailing slash. -/
def Clean (name : Name) : Prop := ¬ ['/', '/'] <:+: name

theorem clean_root : Clean ROOT_NODE := by
  intro h
  have hle := h.length_le
  simp [ROOT_NODE] at hle

theorem Clean.not_overshoots {a name : Name} (h : Clean name) : ¬ Overshoots a name := by
  rintro ⟨rest, rfl, -⟩
  obtain ⟨front, hfront⟩ := List.getLast?_eq_some_iff.mp (prefixOf_getLast a)
  exact h ⟨front, rest, by rw [hfront]; simp⟩

/-- A stored name holds a clean one if its directory form is a proper prefix. -/
theorem mem_ancestorNames_iff {name a : Name} (h : Clean name) (ha : a ≠ []) (hroot : a ≠ ROOT_NODE) :
    a ∈ ancestorNames name ↔ prefixOf a <+: name ∧ name ≠ prefixOf a := by
  rw [mem_ancestorNames_iff_overshoots ha hroot, and_iff_left h.not_overshoots]

/-- Two names that hold one name differ in length. -/
theorem ancestors_eq_of_length {name a b : Name} (h : Clean name) (ha : a ∈ ancestorNames name)
    (hb : b ∈ ancestorNames name) (hane : a ≠ []) (hbne : b ≠ []) (haroot : a ≠ ROOT_NODE) (hbroot : b ≠ ROOT_NODE)
    (hlength : a.length = b.length) : a = b := by
  have hpa := (prefix_prefixOf a).trans ((mem_ancestorNames_iff h hane haroot).mp ha).1
  have hpb := (prefix_prefixOf b).trans ((mem_ancestorNames_iff h hbne hbroot).mp hb).1
  exact (List.prefix_of_prefix_length_le hpa hpb hlength.le).eq_of_length hlength

/-! ## Names below the root -/

/-- The name has no empty segments, and if it starts with a segment of one
character, then nothing follows that. -/
structure Proper (name : Name) : Prop where
  clean : Clean name
  second : ∀ c rest, name = c :: '/' :: rest → rest = []

theorem proper_root : Proper ROOT_NODE := by
  refine ⟨clean_root, fun c rest h => ?_⟩
  cases h

/-- Names that begin with a slash and have no empty segments. -/
theorem Clean.proper_of_rooted {name : Name} (h : Clean ('/' :: name)) : Proper ('/' :: name) := by
  refine ⟨h, fun c rest he => ?_⟩
  obtain ⟨-, rfl⟩ := List.cons.inj he
  exact absurd ⟨[], rest, rfl⟩ h

/-- What holds a proper name is the root or longer than it. -/
theorem Proper.ancestor_length {name a : Name} (h : Proper name) (ha : a ∈ ancestorNames name) (hne : a ≠ [])
    (hroot : a ≠ ROOT_NODE) : ROOT_NODE.length < a.length := by
  obtain ⟨hhead, hname⟩ := (mem_ancestorNames_iff h.clean hne hroot).mp ha
  cases a with
  | nil => exact absurd rfl hne
  | cons c rest =>
    cases rest with
    | cons d rest => simp [ROOT_NODE]
    | nil =>
      exfalso
      have hslash : c ≠ '/' := by
        rintro rfl
        exact hroot rfl
      have hform : prefixOf [c] = [c, '/'] := by simp [prefixOf, hslash]
      rw [hform] at hhead hname
      obtain ⟨rest, rfl⟩ := hhead
      rw [h.second c rest rfl] at hname
      exact hname rfl

/-- Two names that hold a proper name differ in length. -/
theorem Proper.ancestor_inj {name a b : Name} (h : Proper name) (ha : a ∈ ancestorNames name) (hb : b ∈ ancestorNames name)
    (hane : a ≠ []) (hbne : b ≠ []) (hlength : a.length = b.length) : a = b := by
  by_cases haroot : a = ROOT_NODE
  · by_cases hbroot : b = ROOT_NODE
    · rw [haroot, hbroot]
    · have hlt := h.ancestor_length hb hbne hbroot
      rw [haroot] at hlength
      omega
  · by_cases hbroot : b = ROOT_NODE
    · have hlt := h.ancestor_length ha hane haroot
      rw [hbroot] at hlength
      omega
    · exact ancestors_eq_of_length h.clean ha hb hane hbne haroot hbroot hlength

end Linksurf.Visualization
