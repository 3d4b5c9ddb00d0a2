import WllOs.Fs.Path

namespace WllOs.Fs

variable {N : Type} {path base : HostPath N} {steps steps' : List (Part N)} {name : N}

theorem normalize_steps : normalize path (steps ++ steps') = normalize (normalize path steps) steps' :=
  List.foldl_append

-- The components of the result are components from before.
theorem mem_normalize (h : name ∈ normalize path steps) : name ∈ path ∨ .name name ∈ steps := by
  induction steps generalizing path
  case nil => exact .inl h
  case cons part steps hi =>
    rcases hi h with h | h
    case inr => exact .inr (List.mem_cons_of_mem _ h)
    case inl =>
      cases part
      case empty => exact .inl h
      case dot => exact .inl h
      case dotdot => exact .inl (List.dropLast_subset _ h)
      case name component =>
        rcases List.mem_append.mp h with h | h
        case inl => exact .inl h
        case inr => exact .inr (by simp [List.mem_singleton.mp h])

namespace Text

variable {text path cwd root p q part : Text} {ns : List Text} {absolute : Bool}

theorem splitOn_cons_slash : (slash :: text).splitOn slash = [] :: text.splitOn slash := by
  simp [List.splitOn_cons_eq_if_modifyHead]

theorem slash_not_mem_of_mem_splitOn (h : part ∈ text.splitOn slash) : slash ∉ part := by
  induction text generalizing part
  case nil =>
    rw [List.splitOn_nil, List.mem_singleton] at h
    simp [h]
  case cons byte text hi =>
    rw [List.splitOn_cons_eq_if_modifyHead] at h
    split at h
    case isTrue =>
      rcases List.mem_cons.mp h with rfl | h
      case inl => simp
      case inr => exact hi h
    case isFalse hb =>
      obtain ⟨first, rest, hs⟩ := List.exists_cons_of_ne_nil (List.splitOn_ne_nil slash text)
      rw [hs, List.modifyHead_cons] at h
      rcases List.mem_cons.mp h with rfl | h
      case inl =>
        have hfirst : slash ∉ first := hi (hs ▸ List.mem_cons_self ..)
        exact fun hm => (List.mem_cons.mp hm).elim (fun he => hb (by simp [he])) hfirst
      case inr => exact hi (hs ▸ List.mem_cons_of_mem _ h)

theorem toPart_eq_name : toPart part = .name text ↔ part = text ∧ part ≠ [] ∧ part ≠ [dot] ∧ part ≠ [dot, dot] := by
  simp only [toPart]
  constructor
  case mp =>
    intro h
    repeat' split at h
    all_goals cases h
    case isFalse.isFalse.isFalse hempty hdot hdotdot => exact ⟨rfl, hempty, hdot, hdotdot⟩
  case mpr =>
    rintro ⟨rfl, hempty, hdot, hdotdot⟩
    rw [if_neg hempty, if_neg hdot, if_neg hdotdot]

theorem IsName.of_mem_names (h : part ∈ path.names) : IsName part := by
  rcases mem_normalize h with h | h
  case inl => cases h
  case inr =>
    obtain ⟨text, hm, ht⟩ := List.mem_map.mp h
    obtain rfl := (toPart_eq_name.mp ht).1
    exact ⟨ht, slash_not_mem_of_mem_splitOn hm⟩

theorem IsName.ne_nil (h : IsName part) : part ≠ [] :=
  (toPart_eq_name.mp h.part).2.1

theorem parts_slash_append (text : Text) : (text ++ slash :: path).parts = text.parts ++ path.parts := by
  simp [parts, List.splitOn_append_cons_self]

theorem names_append (text path : Text) : (text ++ slash :: path).names = normalize text.names path.parts := by
  rw [names, parts_slash_append, normalize_steps, names]

theorem parts_join (h : ∀ n ∈ ns, IsName n) (hn : ns ≠ []) : (join ns).parts = ns.map .name := by
  rw [parts, join, List.splitOn_intercalate slash (fun n hm => (h n hm).slash) hn]
  exact List.map_congr_left fun n hm => (h n hm).part

theorem join_eq_nil (h : ∀ n ∈ ns, IsName n) : join ns = [] ↔ ns = [] := by
  cases ns
  case nil => simp [join]
  case cons n ns =>
    have := (h n (List.mem_cons_self ..)).ne_nil
    cases ns <;> simp [join, List.intercalate_cons_cons, this]

theorem head_join (h : ∀ n ∈ ns, IsName n) : (join ns).head? ≠ some slash := by
  cases ns
  case nil => simp [join]
  case cons n ns =>
    have hn := h n (List.mem_cons_self ..)
    obtain ⟨byte, rest, rfl⟩ := List.exists_cons_of_ne_nil hn.ne_nil
    have hb : byte ≠ slash := fun he => hn.slash (by simp [he])
    cases ns <;> simp [join, List.intercalate_cons_cons, hb]

theorem getLast_join (h : ∀ n ∈ ns, IsName n) : (join ns).getLast? ≠ some slash := by
  induction ns
  case nil => simp [join]
  case cons n ns hi =>
    have ⟨hn, hs⟩ := List.forall_mem_cons.mp h
    cases ns
    case nil => simpa [join] using fun he => hn.slash (List.mem_of_getLast? he)
    case cons m ns =>
      have hne : join (m :: ns) ≠ [] := fun he => List.cons_ne_nil _ _ ((join_eq_nil hs).mp he)
      have hsplit : join (n :: m :: ns) = n ++ [slash] ++ join (m :: ns) := List.intercalate_cons_cons
      rw [hsplit, List.getLast?_append_of_ne_nil _ hne]
      exact hi hs

theorem isAbsolute_render (h : ∀ n ∈ ns, IsName n) : (render absolute ns).isAbsolute = absolute := by
  cases absolute
  case true => simp [render, isAbsolute]
  case false =>
    simp only [render, Bool.false_eq_true, if_false]
    split
    case isTrue => rfl
    case isFalse => exact decide_eq_false (head_join h)

theorem parts_dot : parts [dot] = [.dot] := by
  decide

-- The text of a path with the given components leads to them from any directory.
theorem normalize_render (base : HostPath Text) (h : ∀ n ∈ ns, IsName n) :
    normalize base (render absolute ns).parts = base ++ ns := by
  have hlist : ns ≠ [] → normalize base (join ns).parts = base ++ ns := fun hn => by
    rw [parts_join h hn, normalize_names]
  cases absolute
  case true =>
    have hparts : parts (slash :: join ns) = .empty :: (join ns).parts := by
      simp only [parts, splitOn_cons_slash, List.map_cons]
      rfl
    simp only [render, if_true, hparts]
    cases ns
    case nil => simp [join, parts, toPart, normalize, Part.push]
    case cons n ns => exact hlist (List.cons_ne_nil n ns)
  case false =>
    simp only [render, Bool.false_eq_true, if_false]
    split
    case isTrue hn => simp [hn, parts_dot, normalize, Part.push]
    case isFalse hn => exact hlist hn

theorem names_render (h : ∀ n ∈ ns, IsName n) : (render absolute ns).names = ns :=
  normalize_render [] h

-- The components that are left make up the result.
theorem normalizeParts_eq (path : Text) : path.normalizeParts = render path.isAbsolute path.names := by
  have hnames : ∀ n ∈ path.names, IsName n := fun n hm => .of_mem_names hm
  have hlast := getLast_join hnames
  simp only [normalizeParts]
  cases path.isAbsolute
  case true =>
    have hend : (slash :: join path.names).length > 1 → (slash :: join path.names).getLast? ≠ some slash := fun hl => by
      obtain ⟨byte, rest, he⟩ := List.exists_cons_of_ne_nil (List.ne_nil_of_length_pos (Nat.lt_of_succ_lt_succ hl))
      rwa [he, List.getLast?_cons_cons, ← he]
    have hcut : ¬((slash :: join path.names).length > 1 && (slash :: join path.names).getLast? = some slash) := by
      simpa using hend
    simp only [if_true, List.cons_append, List.nil_append, render]
    rw [if_neg (List.cons_ne_nil _ _), if_neg hcut]
  case false =>
    simp [render, hlast, join_eq_nil hnames]

-- A string starts with the first of its parts, which ends at a slash or with the string.
theorem eq_of_splitOn {rest : List Text} (h : text.splitOn slash = part :: rest) :
    text = part ∨ ∃ tail, text = part ++ slash :: tail := by
  have hjoin := @List.intercalate_splitOn _ text _ _ slash
  rw [h] at hjoin
  cases rest
  case nil => exact .inl (by simpa using hjoin.symm)
  case cons next rest =>
    rw [List.intercalate_cons_cons] at hjoin
    exact .inr ⟨[slash].intercalate (next :: rest), by simpa using hjoin.symm⟩

theorem looksAhead_of_first {rest : List Text} (h : text.splitOn slash = part :: rest)
    (hp : part = [] ∧ text ≠ [] ∨ part = [dot] ∨ part = [dot, dot]) : looksAhead text = true := by
  rcases eq_of_splitOn h with rfl | ⟨tail, rfl⟩
  case inl =>
    rcases hp with ⟨hp, hn⟩ | rfl | rfl
    case inl => exact absurd hp hn
    case inr.inl => rfl
    case inr.inr => rfl
  case inr =>
    rcases hp with ⟨rfl, _⟩ | rfl | rfl
    all_goals rfl

-- What the scanner accepts has no dots behind its slashes, and an empty component only at the end.
theorem scan_parts (h : scan text = true) : ∀ part ∈ (text.splitOn slash).tail,
    part ≠ [dot] ∧ part ≠ [dot, dot] ∧ (part = [] → text.getLast? = some slash) := by
  induction text
  case nil => simp
  case cons byte text hi =>
    have hlast : ∀ {rest : List UInt8}, rest.getLast? = some slash → (byte :: rest).getLast? = some slash := by
      intro rest hr
      cases rest
      case nil => cases hr
      case cons => rwa [List.getLast?_cons_cons]
    simp only [scan] at h
    split at h
    case isTrue => cases h
    case isFalse hahead =>
      have hrest := hi h
      obtain ⟨first, rest, hs⟩ := List.exists_cons_of_ne_nil (List.splitOn_ne_nil slash text)
      rw [hs, List.tail_cons] at hrest
      rw [List.splitOn_cons_eq_if_modifyHead, hs]
      split
      case isFalse =>
        intro part hm
        have ⟨hdot, hdotdot, hempty⟩ := hrest part hm
        exact ⟨hdot, hdotdot, fun he => hlast (hempty he)⟩
      case isTrue hb =>
        obtain rfl : byte = slash := by simpa using hb
        have hahead : ¬looksAhead text = true := by simpa using hahead
        intro part hm
        rcases List.mem_cons.mp hm with rfl | hm
        case inl =>
          refine ⟨fun he => hahead (looksAhead_of_first hs (.inr (.inl he))),
            fun he => hahead (looksAhead_of_first hs (.inr (.inr he))), fun he => ?_⟩
          by_cases hn : text = []
          case pos => simp [hn]
          case neg => exact absurd (looksAhead_of_first hs (.inl ⟨he, hn⟩)) hahead
        case inr =>
          have ⟨hdot, hdotdot, hempty⟩ := hrest part hm
          exact ⟨hdot, hdotdot, fun he => hlast (hempty he)⟩

theorem map_toPart (h : ∀ n ∈ ns, n ≠ [] ∧ n ≠ [dot] ∧ n ≠ [dot, dot]) : ns.map toPart = ns.map .name :=
  List.map_congr_left fun n hm => toPart_eq_name.mpr ⟨rfl, h n hm⟩

theorem isAbsolute_iff : path.isAbsolute ↔ ∃ rest, path = slash :: rest := by
  cases path <;> simp [isAbsolute]

-- The scanner accepts only what the components make up again.
theorem normalizeParts_of_accepted (h : path.pathIsAlreadyNormalized) : path.normalizeParts = path := by
  rw [normalizeParts_eq]
  simp only [pathIsAlreadyNormalized] at h
  repeat' split at h
  all_goals try cases h
  case isFalse.isFalse.isFalse hspecial hend hstart =>
    have hscan := scan_parts h
    simp only [Bool.or_eq_true, decide_eq_true_eq, not_or] at hspecial
    have hlast : path ≠ [slash] → path.getLast? ≠ some slash := fun hn he => by
      refine hend ?_
      obtain ⟨byte, rest, rfl⟩ := List.exists_cons_of_ne_nil hspecial.1.1
      cases rest
      case nil => simp at he; simp [he] at hn
      case cons => simpa using he
    by_cases habs : path.isAbsolute
    case pos =>
      by_cases hroot : path = [slash]
      case pos =>
        subst hroot
        decide
      case neg =>
        obtain ⟨rest, rfl⟩ := isAbsolute_iff.mp habs
        rw [splitOn_cons_slash, List.tail_cons] at hscan
        have hnames : names (slash :: rest) = rest.splitOn slash := by
          have hparts : parts (slash :: rest) = .empty :: (rest.splitOn slash).map toPart := by
            simp only [parts, splitOn_cons_slash, List.map_cons]
            rfl
          rw [names, hparts, map_toPart fun n hm => ⟨fun he => hlast hroot ((hscan n hm).2.2 he), (hscan n hm).1,
            (hscan n hm).2.1⟩]
          exact normalize_names [] _
        rw [hnames, habs, render, if_pos rfl, join, List.intercalate_splitOn]
    case neg =>
      have hrel : path.isAbsolute = false := by simpa using habs
      have hroot : path ≠ [slash] := fun he => by simp [he, isAbsolute] at habs
      obtain ⟨first, rest, hs⟩ := List.exists_cons_of_ne_nil (List.splitOn_ne_nil slash path)
      have hfirst : first ≠ [] ∧ first ≠ [dot] ∧ first ≠ [dot, dot] := by
        rcases eq_of_splitOn hs with rfl | ⟨tail, rfl⟩
        case inl => exact ⟨hspecial.1.1, hspecial.1.2, hspecial.2⟩
        case inr =>
          refine ⟨?_, ?_, ?_⟩
          all_goals rintro rfl
          case refine_1 => simp [isAbsolute] at habs
          case refine_2 => simp [List.isPrefixOf] at hstart
          case refine_3 => simp [List.isPrefixOf] at hstart
      have hnames : path.names = path.splitOn slash := by
        rw [hs, List.tail_cons] at hscan
        rw [names, parts, hs, map_toPart (List.forall_mem_cons.mpr ⟨hfirst, fun n hm =>
          ⟨fun he => hlast hroot ((hscan n hm).2.2 he), (hscan n hm).1, (hscan n hm).2.1⟩⟩)]
        exact normalize_names [] _
      rw [hnames, hrel, render, if_neg Bool.false_ne_true, if_neg (List.splitOn_ne_nil slash path), join,
        List.intercalate_splitOn]

theorem normalizePath_eq (path : Text) : path.normalizePath = render path.isAbsolute path.names := by
  rw [normalizePath]
  split
  case isTrue h => rw [← normalizeParts_eq, normalizeParts_of_accepted h]
  case isFalse => exact normalizeParts_eq path

theorem names_normalizePath (path : Text) : path.normalizePath.names = path.names := by
  rw [normalizePath_eq, names_render fun _ => .of_mem_names]

theorem isAbsolute_normalizePath (path : Text) : path.normalizePath.isAbsolute = path.isAbsolute := by
  rw [normalizePath_eq, isAbsolute_render fun _ => .of_mem_names]

theorem normalizePath_idempotent (path : Text) : path.normalizePath.normalizePath = path.normalizePath := by
  rw [normalizePath_eq path.normalizePath, isAbsolute_normalizePath, names_normalizePath, ← normalizePath_eq]

theorem render_eq_slash (h : ∀ n ∈ ns, IsName n) : render true ns = [slash] ↔ ns = [] := by
  simp [render, join_eq_nil h]

theorem isNormal_render (h : ∀ n ∈ ns, IsName n) : (render true ns).IsNormal where
  absolute   := isAbsolute_render h
  components hroot := by
    have hne : ns ≠ [] := fun he => hroot ((render_eq_slash h).mpr he)
    rw [render, if_pos rfl, List.tail_cons, join, List.splitOn_intercalate slash (fun n hm => (h n hm).slash) hne]
    exact fun n hm => (toPart_eq_name.mp (h n hm).part).2
  trailing hroot := by
    have hne : join ns ≠ [] := fun he => hroot ((render_eq_slash h).mpr ((join_eq_nil h).mp he))
    obtain ⟨byte, rest, he⟩ := List.exists_cons_of_ne_nil hne
    rw [render, if_pos rfl, he, List.getLast?_cons_cons, ← he]
    exact getLast_join h

theorem isNormal_normalizePath (h : path.isAbsolute) : path.normalizePath.IsNormal := by
  rw [normalizePath_eq, h]
  exact isNormal_render fun _ => .of_mem_names

theorem names_of_slash : names [slash] = [] := by
  decide

-- A path is resolved by going on from the components of the directory.
theorem resolvePath_eq (hc : cwd.isAbsolute) (hp : path.isAbsolute = false) :
    resolvePath cwd path = render true (normalize cwd.names path.parts) := by
  have happend : ∀ text : Text, isAbsolute (text ++ slash :: path) → names (text ++ slash :: path) =
      normalize cwd.names path.parts →
      normalizePath (text ++ slash :: path) = render true (normalize cwd.names path.parts) := fun text ha hn => by
    rw [normalizePath_eq, ha, hn]
  simp only [resolvePath, hp, Bool.false_eq_true, if_false, List.append_assoc, List.singleton_append]
  split
  case isTrue hroot =>
    refine happend [] rfl ?_
    rw [names_append, hroot, names_of_slash]
    rfl
  case isFalse =>
    refine happend cwd ?_ (names_append cwd path)
    obtain ⟨rest, rfl⟩ := isAbsolute_iff.mp hc
    exact isAbsolute_iff.mpr ⟨_, rfl⟩

theorem isName_normalize {base : HostPath Text} (hb : ∀ n ∈ base, IsName n) :
    ∀ n ∈ normalize base path.parts, IsName n := fun n hm => by
  rcases mem_normalize hm with hm | hm
  case inl => exact hb n hm
  case inr =>
    obtain ⟨text, ht, he⟩ := List.mem_map.mp hm
    obtain rfl := (toPart_eq_name.mp he).1
    exact ⟨he, slash_not_mem_of_mem_splitOn ht⟩

theorem isNormal_resolvePath (hc : cwd.isAbsolute) (path : Text) : (resolvePath cwd path).IsNormal := by
  by_cases hp : path.isAbsolute
  case pos =>
    rw [resolvePath, if_pos hp]
    exact isNormal_normalizePath hp
  case neg =>
    rw [resolvePath_eq hc (by simpa using hp)]
    exact isNormal_render (isName_normalize fun _ => .of_mem_names)

theorem resolvePath_resolvePath (hc : cwd.isAbsolute) (hp : p.isAbsolute = false) (hq : q.isAbsolute = false)
    (hne : p ≠ []) : resolvePath (resolvePath cwd p) q = resolvePath cwd (p ++ slash :: q) := by
  have happend : isAbsolute (p ++ slash :: q) = false := by
    obtain ⟨byte, rest, rfl⟩ := List.exists_cons_of_ne_nil hne
    exact hp
  have hnames : ∀ n ∈ normalize cwd.names p.parts, IsName n := isName_normalize fun _ => .of_mem_names
  rw [resolvePath_eq (isNormal_resolvePath hc p).absolute hq, resolvePath_eq hc happend, resolvePath_eq hc hp,
    names_render hnames, parts_slash_append, normalize_steps]

theorem dropWhile_render (h : ∀ n ∈ ns, IsName n) (base : HostPath Text) :
    normalize base (parts ((render absolute ns).dropWhile (· = slash))) = base ++ ns := by
  have hkeep : ∀ text : Text, text.head? ≠ some slash → text.dropWhile (· = slash) = text := fun text ht => by
    cases text
    case nil => rfl
    case cons byte rest =>
      have hb : byte ≠ slash := fun he => ht (by simp [he])
      simp [hb]
  cases absolute
  case false =>
    have hrel := @isAbsolute_render _ false h
    rw [hkeep _ (by simpa [isAbsolute] using hrel), normalize_render base h]
  case true =>
    simp only [render, if_true, List.dropWhile_cons, decide_true, hkeep _ (head_join h)]
    cases ns
    case nil => simp [join, parts, toPart, normalize, Part.push]
    case cons n ns => rw [parts_join h (by simp), normalize_names]

-- The components of a path behind the ones of the root.
theorem applyRoot_eq_render (hr : root.isAbsolute) (path : Text) : applyRoot root path =
    if root.names = [] then path.normalizePath else render true (root.names ++ path.names) := by
  have hroot : root.normalizePath = render true root.names := by rw [normalizePath_eq, hr]
  have hnames : ∀ n ∈ root.names, IsName n := fun _ => .of_mem_names
  simp only [applyRoot]
  split
  case isTrue he => rw [he, if_pos names_of_slash]
  case isFalse =>
    rw [hroot]
    split
    case isTrue he => rw [if_pos ((render_eq_slash hnames).mp he)]
    case isFalse he =>
      rw [if_neg fun hn => he ((render_eq_slash hnames).mpr hn)]
      split
      case isTrue hp =>
        have hempty : path.names = [] := by rw [← names_normalizePath, hp, names_of_slash]
        rw [hempty, List.append_nil]
      case isFalse =>
        have habs : isAbsolute (render true root.names ++ slash :: path.normalizePath.dropWhile (· = slash)) := rfl
        rw [List.append_assoc, List.singleton_append, normalizePath_eq (_ ++ _), habs, names_append,
          names_render hnames, normalizePath_eq path, dropWhile_render fun _ => .of_mem_names]

theorem join_append {more : List Text} (hn : ns ≠ []) (hm : more ≠ []) :
    join (ns ++ more) = join ns ++ [slash] ++ join more := by
  induction ns
  case nil => exact absurd rfl hn
  case cons n ns hi =>
    cases ns
    case nil =>
      obtain ⟨m, more, rfl⟩ := List.exists_cons_of_ne_nil hm
      simp [join, List.intercalate_cons_cons]
    case cons n' ns =>
      have hsplit : ∀ rest, join (n :: n' :: rest) = n ++ [slash] ++ join (n' :: rest) := fun _ =>
        List.intercalate_cons_cons
      have hrest := hi (List.cons_ne_nil n' ns)
      simp only [List.cons_append] at hrest ⊢
      simp only [hsplit, hrest, List.append_assoc]

-- Components that are added lead to a path inside of the directory.
theorem strictlyBeneath_render {more : List Text} (h : ∀ n ∈ ns ++ more, IsName n) (hm : more ≠ []) :
    StrictlyBeneath (render true ns) (render true (ns ++ more)) where
  normal := isNormal_render h
  inside := by
    have hns : ∀ n ∈ ns, IsName n := fun n hn => h n (List.mem_append_left _ hn)
    split
    case isTrue he =>
      rw [(render_eq_slash hns).mp he]
      exact ⟨join more, by simp [render, join]⟩
    case isFalse he =>
      have hne : ns ≠ [] := fun hn => he ((render_eq_slash hns).mpr hn)
      exact ⟨join more, by simp [render, join_append hne hm]⟩
  strict he := by
    have hnames := congrArg names he
    rw [names_render h, names_render fun n hn => h n (List.mem_append_left _ hn)] at hnames
    exact hm (List.append_right_eq_self.mp hnames)

-- The root is left out of consideration only if it is the one of the file system.
theorem applyRoot_beneath_iff (hr : root.isAbsolute) (path : Text) :
    (applyRoot root path = root.normalizePath ∨ StrictlyBeneath root.normalizePath (applyRoot root path)) ↔
    root.normalizePath ≠ [slash] ∨ path.isAbsolute := by
  have hroot : root.normalizePath = render true root.names := by rw [normalizePath_eq, hr]
  have hall : ∀ n ∈ root.names ++ path.names, IsName n := fun n hm =>
    (List.mem_append.mp hm).elim .of_mem_names .of_mem_names
  -- A path behind the root is the root if it has no components, and beneath it otherwise.
  have hbehind : render true (root.names ++ path.names) = render true root.names ∨
      StrictlyBeneath (render true root.names) (render true (root.names ++ path.names)) := by
    by_cases hp : path.names = []
    case pos => exact .inl (by rw [hp, List.append_nil])
    case neg => exact .inr (strictlyBeneath_render hall hp)
  rw [applyRoot_eq_render hr, hroot]
  by_cases hn : root.names = []
  case neg =>
    have hne : render true root.names ≠ [slash] := fun he =>
      hn ((render_eq_slash fun _ => .of_mem_names).mp he)
    simp only [hn, if_false, hbehind, hne, ne_eq, not_false_eq_true, true_or]
  case pos =>
    have hslash : render true root.names = [slash] := (render_eq_slash fun _ => .of_mem_names).mpr hn
    simp only [hn, if_true, List.nil_append] at hbehind hslash ⊢
    simp only [hslash, ne_eq, not_true_eq_false, false_or] at hbehind ⊢
    constructor
    case mp =>
      rintro (he | hb)
      case inl => rw [← isAbsolute_normalizePath, he]; rfl
      case inr => rw [← isAbsolute_normalizePath]; exact hb.normal.absolute
    case mpr =>
      intro hp
      rwa [normalizePath_eq, hp]

theorem paths_normalised :
    (∀ path : Text, path.normalizePath.normalizePath = path.normalizePath) ∧
    (∀ path : Text, path.pathIsAlreadyNormalized → path.normalizeParts = path) ∧
    (∀ path : Text, path.isAbsolute → path.normalizePath.IsNormal) ∧
    (∀ cwd path : Text, cwd.isAbsolute → (resolvePath cwd path).IsNormal ∧
      (path.isAbsolute → resolvePath cwd path = path.normalizePath)) ∧
    (∀ cwd p q : Text, cwd.isAbsolute → p ≠ [] → p.isAbsolute = false → q ≠ [] → q.isAbsolute = false →
      resolvePath (resolvePath cwd p) q = resolvePath cwd (p ++ [slash] ++ q)) ∧
    ∀ root path : Text, root.isAbsolute →
      ((applyRoot root path = root.normalizePath ∨ StrictlyBeneath root.normalizePath (applyRoot root path)) ↔
        root.normalizePath ≠ [slash] ∨ path.isAbsolute) ∧
      (root.normalizePath = [slash] → applyRoot root path = path.normalizePath) := by
  refine ⟨normalizePath_idempotent, fun _ => normalizeParts_of_accepted, fun _ => isNormal_normalizePath,
    fun cwd path hc => ⟨isNormal_resolvePath hc path, fun hp => if_pos hp⟩, fun cwd p q hc hne hp _ hq => ?_,
    fun root path hr => ⟨applyRoot_beneath_iff hr path, fun hn => ?_⟩⟩
  case refine_1 =>
    rw [resolvePath_resolvePath hc hp hq hne, List.append_assoc, List.singleton_append]
  case refine_2 =>
    rw [normalizePath_eq, hr, render_eq_slash fun _ => .of_mem_names] at hn
    rw [applyRoot_eq_render hr, if_pos hn]

-- A relative path stays relative.
theorem applyRoot_not_beneath : applyRoot [slash] [0x61] = [0x61] ∧
    ¬(applyRoot [slash] [0x61] = normalizePath [slash] ∨
      StrictlyBeneath (normalizePath [slash]) (applyRoot [slash] [0x61])) := by
  have hresult : applyRoot [slash] [0x61] = [0x61] := by decide
  refine ⟨hresult, fun h => ?_⟩
  rw [hresult] at h
  rcases h with h | h
  case inl => exact absurd h (by decide)
  case inr => exact absurd h.normal.absolute (by decide)

end Text

end WllOs.Fs
