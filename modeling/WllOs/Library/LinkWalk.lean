import Mathlib

universe u v

-- How the last component of a path is treated when it is a link.
inductive FinalLink
  | follow
  | preserve
  | reject
  deriving DecidableEq, Repr

-- A tree with links, as far as the walk of a path needs it. For a path whose last component is a link,
-- `link` answers where the link leads, and `enter` answers whether further components may follow a path.
structure LinkTree (N : Type u) (E : Type v) where
  link  : List N → Except E (Option (List N))
  enter : List N → Except E Unit
  loop  : E

namespace LinkTree

variable {N : Type u} {E : Type v}

-- A walk along a path ends at the path itself, or at a link from which it has to go on along another path.
inductive Arrival (N : Type u)
  | arrived (path : List N)
  | redirected (path : List N)

def Arrival.elim (again : List N → Except E (List N)) : Arrival N → Except E (List N)
  | arrived path    => .ok path
  | redirected path => again path

section Walk

variable (tree : LinkTree N E) (final : FinalLink)

-- The walk until the first link. What is left of the path is appended to the link's target.
def scan : List N → List N → Except E (Arrival N)
  | resolved, []                   => .ok (.arrived resolved)
  | resolved, component :: pending =>
    let here := resolved ++ [component]
    if pending.isEmpty ∧ final = .preserve then
      .ok (.arrived here)
    else
      match tree.link here with
      | .error e          => .error e
      | .ok (some target) =>
        if pending.isEmpty ∧ final = .reject then .error tree.loop
        else .ok (.redirected (target ++ pending))
      | .ok none          =>
        if pending.isEmpty then .ok (.arrived here)
        else
          match tree.enter here with
          | .error e => .error e
          | .ok ()   => scan here pending

-- The walk through at most `links` links.
def resolve : Nat → List N → Except E (List N)
  | 0,         path => tree.scan final [] path >>= Arrival.elim fun _ => .error tree.loop
  | links + 1, path => tree.scan final [] path >>= Arrival.elim (resolve links)

-- The paths along which the walk goes, from link to link.
def hops : Nat → List N → List (List N)
  | 0,         path => [path]
  | links + 1, path => path ::
    match tree.scan final [] path with
    | .ok (.redirected next) => hops links next
    | _                      => []

-- The paths that the walk asks about until the first link, and on the whole way.
def leg : List N → List N → List (List N)
  | _,        []                   => []
  | resolved, component :: pending =>
    let here := resolved ++ [component]
    here ::
      match tree.link here, tree.enter here with
      | .ok none, .ok () => leg here pending
      | _,        _      => []

def visited : Nat → List N → List (List N)
  | 0,         path => tree.leg [] path
  | links + 1, path => tree.leg [] path ++
    match tree.scan final [] path with
    | .ok (.redirected next) => visited links next
    | _                      => []

end Walk

-- Every component of the path is a directory and not a link.
def Plain (tree : LinkTree N E) (path : List N) : Prop :=
  ∀ part, part ≠ [] → part <+: path → tree.link part = .ok none ∧ tree.enter part = .ok ()

-- Two trees that are the same beneath a directory that both have.
structure SameBeneath (root : List N) (tree₁ tree₂ : LinkTree N E) : Prop where
  plain₁ : tree₁.Plain root
  plain₂ : tree₂.Plain root
  link   : ∀ path, root <+: path → tree₁.link path = tree₂.link path
  enter  : ∀ path, root <+: path → tree₁.enter path = tree₂.enter path
  loop   : tree₁.loop = tree₂.loop

variable {tree tree₁ tree₂ : LinkTree N E} {final : FinalLink} {resolved pending path next root q : List N}
variable {links : Nat} {e : E} {c : N}

theorem scan_arrived (h : tree.scan final resolved pending = .ok (.arrived q)) : q = resolved ++ pending := by
  induction pending generalizing resolved
  case nil => simpa [scan] using h.symm
  case cons c pending hi =>
    rw [scan] at h
    split at h
    case isTrue hf => cases h; simp [List.isEmpty_iff.mp hf.1]
    case isFalse =>
      cases hl : tree.link (resolved ++ [c]) <;> simp only [hl] at h
      case error => cases h
      case ok target =>
        cases target <;> simp only at h
        case some => split at h <;> cases h
        case none =>
          split at h
          case isTrue he => cases h; simp [List.isEmpty_iff.mp he]
          case isFalse =>
            cases he : tree.enter (resolved ++ [c]) <;> simp only [he] at h
            case error => cases h
            case ok => simpa using hi h

-- Directories are passed.
theorem scan_plain (h : tree.Plain (resolved ++ path)) :
    tree.scan final resolved (path ++ pending) = tree.scan final (resolved ++ path) pending := by
  induction path generalizing resolved
  case nil => simp
  case cons c path hi =>
    have hp : resolved ++ [c] <+: resolved ++ c :: path :=
      (List.prefix_append_right_inj _).mpr ⟨path, rfl⟩
    have ⟨hl, he⟩ := h (resolved ++ [c]) (by simp) hp
    have hi : tree.scan final (resolved ++ [c]) (path ++ pending) = tree.scan final (resolved ++ [c] ++ path) pending :=
      hi (by simpa using h)
    simp only [List.append_assoc, List.singleton_append] at hi
    rw [← hi, List.cons_append, scan, hl, he]
    simp only
    cases hr : path ++ pending
    case nil => simp [scan]
    case cons => simp

theorem scan_plain_nil (h : tree.Plain path) :
    tree.scan final [] (path ++ pending) = tree.scan final path pending :=
  scan_plain (by simpa using h)

theorem scan_congr (hl : tree₁.loop = tree₂.loop)
    (h : ∀ c part, resolved ++ c :: part <+: resolved ++ pending →
      tree₁.link (resolved ++ c :: part) = tree₂.link (resolved ++ c :: part) ∧
      tree₁.enter (resolved ++ c :: part) = tree₂.enter (resolved ++ c :: part)) :
    tree₁.scan final resolved pending = tree₂.scan final resolved pending := by
  induction pending generalizing resolved
  case nil => simp [scan]
  case cons c pending hi =>
    have ⟨h₁, h₂⟩ := h c [] ((List.prefix_append_right_inj _).mpr ⟨pending, rfl⟩)
    have hi : tree₁.scan final (resolved ++ [c]) pending = tree₂.scan final (resolved ++ [c]) pending :=
      hi fun d part hp => by
        have := h c (d :: part) (by simpa using hp)
        simpa using this
    simp only [scan, h₁, h₂, hl, hi]

-- A walk depends only on what it asks about.
theorem scan_local (hl : tree₁.loop = tree₂.loop) (h : ∀ part ∈ tree₁.leg resolved pending,
    tree₁.link part = tree₂.link part ∧ tree₁.enter part = tree₂.enter part) :
    tree₁.scan final resolved pending = tree₂.scan final resolved pending := by
  induction pending generalizing resolved
  case nil => simp [scan]
  case cons c pending hi =>
    have ⟨h₁, h₂⟩ := h (resolved ++ [c]) (by simp [leg])
    simp only [scan, ← h₁, ← h₂, hl]
    cases hk : tree₁.link (resolved ++ [c]) with
    | error => rfl
    | ok target =>
      cases target
      case some => rfl
      case none =>
        cases he : tree₁.enter (resolved ++ [c]) with
        | error => rfl
        | ok => rw [hi fun part hp => h part (by simp [leg, hk, he, hp])]

theorem resolve_local (hl : tree₁.loop = tree₂.loop) (h : ∀ part ∈ tree₁.visited final links path,
    tree₁.link part = tree₂.link part ∧ tree₁.enter part = tree₂.enter part) :
    tree₁.resolve final links path = tree₂.resolve final links path := by
  induction links generalizing path
  case zero => rw [resolve, resolve, scan_local hl h, hl]
  case succ links hi =>
    have hs : tree₁.scan final [] path = tree₂.scan final [] path :=
      scan_local hl fun part hp => h part (List.mem_append_left _ hp)
    cases hr : tree₁.scan final [] path with
    | error => simp [resolve, ← hs, hr, bind, Except.bind]
    | ok arrival =>
      cases arrival
      case arrived => simp [resolve, ← hs, hr, bind, Except.bind, Arrival.elim]
      case redirected next =>
        have := hi fun part hp => h part (List.mem_append_right _ (by simpa only [hr] using hp))
        simpa [resolve, ← hs, hr, bind, Except.bind, Arrival.elim] using this

-- More links than are allowed.
theorem resolve_loop (h : (tree.hops final (links + 1) path).length = links + 2) :
    tree.resolve final links path = .error tree.loop := by
  induction links generalizing path
  case zero =>
    cases hr : tree.scan final [] path with
    | error => simp [hops, hr] at h
    | ok arrival =>
      cases arrival
      case arrived => simp [hops, hr] at h
      case redirected => simp [resolve, hr, bind, Except.bind, Arrival.elim]
  case succ links hi =>
    rw [hops] at h
    cases hr : tree.scan final [] path with
    | error => simp [hr] at h
    | ok arrival =>
      cases arrival
      case arrived => simp [hr] at h
      case redirected next => simpa [resolve, hr, bind, Except.bind, Arrival.elim] using hi (by simpa [hr] using h)

theorem Plain.of_prefix (h : tree.Plain path) (hp : q <+: path) : tree.Plain q :=
  fun part hn hq => h part hn (hq.trans hp)

theorem Plain.snoc (h : tree.Plain path) (hl : tree.link (path ++ [c]) = .ok none) (he : tree.enter (path ++ [c]) = .ok ()) :
    tree.Plain (path ++ [c]) := by
  intro part hn hp
  cases List.prefix_concat_iff.mp hp
  case inl hp => exact hp ▸ ⟨hl, he⟩
  case inr hp => exact h part hn hp

-- A directory is found as such.
theorem resolve_plain (h : tree.Plain path) : tree.resolve final links path = .ok path := by
  have hs : tree.scan final [] (path ++ []) = tree.scan final path [] := scan_plain_nil h
  simp only [List.append_nil, scan] at hs
  cases links <;> simp [resolve, hs, Arrival.elim, bind, Except.bind]

theorem hops_head : path ∈ tree.hops final links path := by
  cases links <;> simp [hops]

theorem mem_hops_redirected (h : tree.scan final [] path = .ok (.redirected next)) :
    q ∈ tree.hops final (links + 1) path ↔ q = path ∨ q ∈ tree.hops final links next := by
  simp [hops, h]

-- A walk ends on the last of its paths.
theorem resolve_getLast (h : tree.resolve final links path = .ok q) :
    (tree.hops final links path).getLast? = some q := by
  induction links generalizing path
  case zero =>
    cases hs : tree.scan final [] path with
    | error => simp [resolve, hs, bind, Except.bind] at h
    | ok arrival =>
      cases arrival <;> simp [resolve, hs, Arrival.elim, bind, Except.bind] at h
      case arrived q' => simp [hops, ← h, scan_arrived hs]
  case succ links hi =>
    cases hs : tree.scan final [] path with
    | error => simp [resolve, hs, bind, Except.bind] at h
    | ok arrival =>
      cases arrival <;> simp [resolve, hs, Arrival.elim, bind, Except.bind] at h
      case arrived q' => simp [hops, hs, ← h, scan_arrived hs]
      case redirected next =>
        simp only [hops, hs]
        rw [List.getLast?_cons, hi h]
        rfl

theorem resolve_mem_hops (h : tree.resolve final links path = .ok q) : q ∈ tree.hops final links path :=
  List.mem_of_getLast? (resolve_getLast h)

-- A path without links is found as it stands.
theorem resolve_no_link (h : ∀ part, part ≠ [] → part <+: path → tree.link part = .ok none) (links : Nat) :
    tree.hops final links path = [path] ∧ ∀ q, tree.resolve final links path = .ok q → q = path := by
  have hs : ∀ next, tree.scan final [] path ≠ .ok (.redirected next) := by
    have hg : ∀ pending done next, done ++ pending = path →
        tree.scan final done pending ≠ .ok (.redirected next) := by
      intro pending
      induction pending
      case nil => simp [scan]
      case cons c pending hi =>
        intro done next he
        have hl := h (done ++ [c]) (by simp) ⟨pending, by simp [he]⟩
        have hi := hi (done ++ [c]) next (by simp [he])
        simp only [scan, hl]
        split
        case isTrue => simp
        case isFalse =>
          split
          case isTrue => simp
          case isFalse => cases tree.enter (done ++ [c]) <;> simp_all
    exact fun next => hg path [] next rfl
  cases hr : tree.scan final [] path with
  | error => cases links <;> simp [hops, resolve, hr, bind, Except.bind]
  | ok arrival =>
    cases arrival
    case redirected next => exact absurd hr (hs next)
    case arrived p =>
      have he : p = path := by simpa using scan_arrived hr
      cases links <;> simp [hops, resolve, hr, bind, Except.bind, Arrival.elim, he]

section Beneath

variable (hb : SameBeneath root tree₁ tree₂)
include hb

-- Along a path beneath the directory, both trees have the same links.
theorem SameBeneath.scan_eq (hp : root <+: path) : tree₁.scan final [] path = tree₂.scan final [] path := by
  apply scan_congr hb.loop
  intro c part hq
  simp only [List.nil_append] at hq ⊢
  cases List.prefix_or_prefix_of_prefix hp hq
  case inl h => exact ⟨hb.link _ h, hb.enter _ h⟩
  case inr h =>
    have ⟨h₁, h₂⟩ := hb.plain₁ _ (by simp) h
    have ⟨h₃, h₄⟩ := hb.plain₂ _ (by simp) h
    exact ⟨h₁.trans h₃.symm, h₂.trans h₄.symm⟩

-- A walk of which no link leads out of the directory is the same in both trees.
theorem SameBeneath.resolve_eq (hp : ∀ hop ∈ tree₁.hops final links path, root <+: hop) :
    tree₁.resolve final links path = tree₂.resolve final links path ∧
    tree₁.hops final links path = tree₂.hops final links path := by
  induction links generalizing path
  case zero => simp [resolve, hops, hb.scan_eq (hp _ hops_head), hb.loop]
  case succ links hi =>
    have hs : tree₁.scan final [] path = tree₂.scan final [] path := hb.scan_eq (hp _ hops_head)
    cases hr : tree₁.scan final [] path with
    | error => simp [resolve, hops, hs ▸ hr, hr, bind, Except.bind]
    | ok arrival =>
      cases arrival
      case arrived => simp [resolve, hops, hs ▸ hr, hr, bind, Except.bind, Arrival.elim]
      case redirected next =>
        have ⟨h₁, h₂⟩ := hi fun hop hm => hp hop ((mem_hops_redirected hr).mpr (.inr hm))
        simp [resolve, hops, hs ▸ hr, hr, bind, Except.bind, Arrival.elim, h₁, h₂]

end Beneath

-- A walk of which a link leads out of the directory goes on along a path outside in every tree that is the
-- same beneath.
theorem exists_outside (h : ¬∀ hop ∈ tree.hops final links path, root <+: hop) :
    ∃ rest outside, ¬root <+: outside ∧ ∀ other, SameBeneath root tree other →
      other.resolve final links path = other.resolve final rest outside := by
  induction links generalizing path
  case zero => exact ⟨0, path, by simpa [hops] using h, fun _ _ => rfl⟩
  case succ links hi =>
    by_cases hp : root <+: path
    case neg => exact ⟨links + 1, path, hp, fun _ _ => rfl⟩
    case pos =>
      cases hs : tree.scan final [] path with
      | error => simp [hops, hs, hp] at h
      | ok arrival =>
        cases arrival
        case arrived => simp [hops, hs, hp] at h
        case redirected next =>
          have hn : ¬∀ hop ∈ tree.hops final links next, root <+: hop := by simpa [hops, hs, hp] using h
          have ⟨rest, outside, ho, hr⟩ := hi hn
          refine ⟨rest, outside, ho, fun other hb => ?_⟩
          have hs' : other.scan final [] path = .ok (.redirected next) := hb.scan_eq hp ▸ hs
          simp [resolve, hs', bind, Except.bind, Arrival.elim, hr other hb]

-- A path that is not beneath a directory ends above it, or turns off at a component next to it.
theorem outside_cases [DecidableEq N] (h : ¬root <+: path) :
    path <+: root ∨ ∃ above c rest, path = above ++ c :: rest ∧ above <+: root ∧ ¬above ++ [c] <+: root ∧
      ∃ d, above ++ [d] <+: root := by
  induction path generalizing root
  case nil => exact .inl List.nil_prefix
  case cons c path hi =>
    cases root
    case nil => simp at h
    case cons d root =>
      by_cases hc : c = d
      case neg => exact .inr ⟨[], c, path, rfl, List.nil_prefix, by simp [hc], d, by simp⟩
      case pos =>
        subst hc
        have hn : ¬root <+: path := by simpa using h
        cases hi hn
        case inl hp => exact .inl (by simpa using hp)
        case inr hp =>
          have ⟨above, c', rest, he, h₁, h₂, d, h₃⟩ := hp
          exact .inr ⟨c :: above, c', rest, by simp [he], by simpa using h₁, by simpa using h₂, d,
            by simpa using h₃⟩

section TurnOff

variable {above rest : List N} (hp : tree.Plain above)
include hp

theorem scan_turn :
    tree.scan final [] (above ++ c :: rest) = tree.scan final above (c :: rest) :=
  scan_plain_nil hp

-- What the walk of a path outside gives if the path turns off at a component that is not found.
theorem resolve_turn_error (hl : tree.link (above ++ [c]) = .error e) :
    tree.resolve final links (above ++ c :: rest) =
      if rest.isEmpty ∧ final = .preserve then .ok (above ++ [c]) else .error e := by
  have hs : tree.scan final [] (above ++ c :: rest) =
      if rest.isEmpty ∧ final = .preserve then .ok (.arrived (above ++ [c])) else .error e := by
    rw [scan_turn hp, scan, hl]
  cases links <;> rw [resolve, hs] <;> split <;> rfl

-- What it gives if the path turns off at a link to itself.
theorem resolve_turn_loop (hl : tree.link (above ++ [c]) = .ok (some (above ++ [c]))) :
    tree.resolve final links (above ++ c :: rest) =
      if rest.isEmpty ∧ final = .preserve then .ok (above ++ [c]) else .error tree.loop := by
  have hs : tree.scan final [] (above ++ c :: rest) =
      if rest.isEmpty ∧ final = .preserve then .ok (.arrived (above ++ [c]))
      else if rest.isEmpty ∧ final = .reject then .error tree.loop
      else .ok (.redirected (above ++ c :: rest)) := by
    rw [scan_turn hp, scan, hl]
    simp
  induction links
  case zero => rw [resolve, hs]; split <;> [rfl; split <;> rfl]
  case succ links hi =>
    rw [resolve, hs]
    split
    case isTrue => rfl
    case isFalse hn =>
      split
      case isTrue => rfl
      case isFalse => exact hi.trans (if_neg hn)

-- What it gives in a directory for a last component that is kept, that is no link, and that is one.
theorem resolve_last_preserve : tree.resolve .preserve links (above ++ [c]) = .ok (above ++ [c]) := by
  cases links <;> simp [resolve, scan_turn hp, scan, bind, Except.bind, Arrival.elim]

theorem resolve_last_none (hl : tree.link (above ++ [c]) = .ok none) :
    tree.resolve final links (above ++ [c]) = .ok (above ++ [c]) := by
  cases links <;> simp [resolve, scan_turn hp, scan, hl, bind, Except.bind, Arrival.elim]

theorem resolve_last_link (hl : tree.link (above ++ [c]) = .ok (some next)) :
    tree.resolve .follow (links + 1) (above ++ [c]) = tree.resolve .follow links next := by
  simp [resolve, scan_turn hp, scan, hl, bind, Except.bind, Arrival.elim]

end TurnOff

-- The tree beneath a directory, with paths that start there.
section Shift

variable {base : List N} {part : List N}

def Arrival.shift (base : List N) : Arrival N → Arrival N
  | arrived path    => arrived (base ++ path)
  | redirected path => redirected (base ++ path)

-- What stands at a path is read the same from the directory as from the top.
structure ReadAlike (base : List N) (whole inner : LinkTree N E) (part : List N) : Prop where
  link  : whole.link (base ++ part) = (inner.link part).map (Option.map (base ++ ·))
  enter : whole.enter (base ++ part) = inner.enter part

variable {whole inner : LinkTree N E} (hloop : whole.loop = inner.loop)
include hloop

theorem scan_shift (h : ∀ part, part ≠ [] → part <+: resolved ++ pending → ReadAlike base whole inner part) :
    whole.scan final (base ++ resolved) pending = (inner.scan final resolved pending).map (Arrival.shift base) := by
  induction pending generalizing resolved
  case nil => simp [scan, Except.map, Arrival.shift]
  case cons c pending hi =>
    have ⟨hl, he⟩ := h (resolved ++ [c]) (by simp) ((List.prefix_append_right_inj _).mpr ⟨pending, rfl⟩)
    have hi : whole.scan final (base ++ (resolved ++ [c])) pending =
        (inner.scan final (resolved ++ [c]) pending).map (Arrival.shift base) := hi (by simpa using h)
    simp only [scan, List.append_assoc, hl, he, hloop] at hi ⊢
    split
    case isTrue => simp [Except.map, Arrival.shift]
    case isFalse =>
      cases inner.link (resolved ++ [c]) <;> simp only [Except.map]
      case ok target =>
        cases target <;> simp only [Option.map_none, Option.map_some]
        case none =>
          split
          case isTrue => simp [Arrival.shift]
          case isFalse => cases inner.enter (resolved ++ [c]) <;> simp_all [Except.map]
        case some => split <;> simp [Arrival.shift]

theorem scan_nil_shift (hp : whole.Plain base)
    (h : ∀ part, part ≠ [] → part <+: path → ReadAlike base whole inner part) :
    whole.scan final [] (base ++ path) = (inner.scan final [] path).map (Arrival.shift base) := by
  rw [scan_plain_nil hp]
  have hs : whole.scan final (base ++ []) path = (inner.scan final [] path).map (Arrival.shift base) :=
    scan_shift hloop h
  simpa using hs

theorem resolve_shift (hp : whole.Plain base)
    (h : ∀ hop ∈ inner.hops final links path, ∀ part, part ≠ [] → part <+: hop → ReadAlike base whole inner part) :
    whole.resolve final links (base ++ path) = (inner.resolve final links path).map (base ++ ·) := by
  induction links generalizing path
  case zero =>
    rw [resolve, resolve, scan_nil_shift hloop hp (h path hops_head)]
    cases inner.scan final [] path with
    | error => rfl
    | ok arrival => cases arrival <;> simp [Except.map, Arrival.shift, Arrival.elim, bind, Except.bind, hloop]
  case succ links hi =>
    rw [resolve, resolve, scan_nil_shift hloop hp (h path hops_head)]
    cases hr : inner.scan final [] path with
    | error => rfl
    | ok arrival =>
      cases arrival
      case arrived => simp [Except.map, Arrival.shift, Arrival.elim, bind, Except.bind]
      case redirected next =>
        have hi : whole.resolve final links (base ++ next) = (inner.resolve final links next).map (base ++ ·) :=
          hi fun hop hm => h hop ((mem_hops_redirected hr).mpr (.inr hm))
        simpa [Except.map, Arrival.shift, Arrival.elim, bind, Except.bind] using hi

end Shift

end LinkTree
