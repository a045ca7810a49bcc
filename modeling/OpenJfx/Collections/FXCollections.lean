import OpenJfx.Collections.ObservableListEdit
import OpenJfx.Data.CyclicWalk
import OpenJfx.Java.Ints

namespace OpenJfx.Collections.FXCollections

open Java.Arrays Java.Ints Collections.ListChange Collections.ObservableListEdit Data.CyclicWalk
open List

variable {T : Type}

/-- The exceptions with which `rotate` can end. -/
inductive RotateFailure
  | arithmetic
  | other (failure : Failure)

/-- The `do ... while` loop, which moves the elements of one cycle. -/
def moveCycle (size distance cycleStart : Int) :
    Nat → Int → T → List T → Int → Outcome (List T × Int)
  | 0, _, _, _, _ => .error (.illegalState "out of fuel")
  | fuel + 1, i, displaced, newContent, nMoved => do
    let i := int32 (i + distance)
    let i := if size ≤ i then i - size else i
    let tmp ← load newContent i
    let newContent ← store newContent i displaced
    if i ≠ cycleStart then moveCycle size distance cycleStart fuel i tmp newContent (nMoved + 1)
    else .ok (newContent, nMoved + 1)

def moveCycles (size distance : Int) : Nat → Int → List T → Int → Outcome (List T)
  | 0, _, _, _ => .error (.illegalState "out of fuel")
  | fuel + 1, cycleStart, newContent, nMoved =>
    if nMoved ≠ size then do
      let displaced ← load newContent cycleStart
      let (newContent, nMoved) ←
        moveCycle size distance cycleStart size.toNat cycleStart displaced newContent nMoved
      moveCycles size distance fuel (cycleStart + 1) newContent nMoved
    else .ok newContent

/-- All elements are set at once. -/
def setAll (list newContent : List T) :
    Except RotateFailure (List T × Option (List (SubChange T))) :=
  match (ListEdit.setAll newContent).run list with
  | .error failure => .error (.other failure)
  | .ok result => .ok result

/-- `rotate(list, distance)`. A cycle has at most as many elements as the list, and there are at
most as many cycles. -/
def rotate (list : List T) (distance : Int) :
    Except RotateFailure (List T × Option (List (SubChange T))) :=
  let size : Int := list.length
  if size = 0 then .error .arithmetic
  else
    let distance := distance.tmod size
    let distance := if distance < 0 then distance + size else distance
    if distance = 0 then .ok (list, none)
    else
      match moveCycles size distance (size.toNat + 1) 0 list 0 with
      | .error failure => .error (.other failure)
      | .ok newContent => setAll list newContent

/-- The elements at some indexes have been replaced by those that stood `d` before, the others
are as they were. -/
structure Moved (l : List T) (d : Nat) (done : Nat → Prop) (newContent : List T) : Prop where
  length : newContent.length = l.length
  moved : ∀ j, j < l.length → done j →
    newContent[j]? = l[(j + (l.length - d)) % l.length]?
  kept : ∀ j, j < l.length → ¬done j → newContent[j]? = l[j]?

section

variable {l newContent : List T} {d c : Nat} {done : Nat → Prop}

theorem Moved.congr (h : Moved l d done newContent) {done' : Nat → Prop}
    (hdone : ∀ j, j < l.length → (done j ↔ done' j)) : Moved l d done' newContent :=
  ⟨h.length, fun j hj hj' => h.moved j hj ((hdone j hj).mpr hj'),
    fun j hj hj' => h.kept j hj fun hd => hj' ((hdone j hj).mp hd)⟩

theorem Moved.set (h : Moved l d done newContent) {i k : Nat} (hi : i < l.length)
    (hback : (i + (l.length - d)) % l.length = k) {x : T} (hx : l[k]? = some x) :
    Moved l d (fun j => done j ∨ i = j) (newContent.set i x) := by
  refine ⟨by rw [length_set, h.length], ?_, ?_⟩
  · intro j hj hdone
    by_cases heq : i = j
    · subst heq
      rw [getElem?_set_self (by rw [h.length]; exact hi), hback, hx]
    · rw [getElem?_set_ne heq]
      exact h.moved j hj (hdone.resolve_right heq)
  · intro j hj hdone
    rw [not_or] at hdone
    rw [getElem?_set_ne hdone.2]
    exact h.kept j hj hdone.1

def MovedUpTo (l : List T) (d c k : Nat) : List T → Prop :=
  Moved l d fun j => j % l.length.gcd d < c ∨ ∃ t, t < k ∧ place l.length d c (t + 1) = j

theorem next_index {n i : Nat} (hi : i < n) (hd : d < n) (hfits : i + d < 2 ^ 31) :
    (if (n : Int) ≤ int32 ((i : Int) + d) then int32 ((i : Int) + d) - n
      else int32 ((i : Int) + d)) = ((i + d) % n : Nat) := by
  rw [int32_eq (by omega) (by omega)]
  split
  · rw [Nat.mod_eq_sub_mod (by omega), Nat.mod_eq_of_lt (by omega)]
    omega
  · rw [Nat.mod_eq_of_lt (by omega)]
    omega

theorem moveCycle_step (hd : d < l.length) (hc : c < l.length.gcd d) {k : Nat}
    (hk : k < l.length / l.length.gcd d) (h : MovedUpTo l d c k newContent) {displaced : T}
    (hdisplaced : l[place l.length d c k]? = some displaced)
    (hfits : place l.length d c k + d < 2 ^ 31) (fuel : Nat) (nMoved : Int) :
    ∃ tmp, l[place l.length d c (k + 1)]? = some tmp ∧
      MovedUpTo l d c (k + 1) (newContent.set (place l.length d c (k + 1)) displaced) ∧
      moveCycle l.length d c (fuel + 1) (place l.length d c k) displaced newContent nMoved =
        if k + 1 = l.length / l.length.gcd d then
          .ok (newContent.set (place l.length d c (k + 1)) displaced, nMoved + 1)
        else moveCycle l.length d c fuel (place l.length d c (k + 1)) tmp
          (newContent.set (place l.length d c (k + 1)) displaced) (nMoved + 1) := by
  have hn : 0 < l.length := by omega
  have hcn : c < l.length := Nat.lt_of_lt_of_le hc (Nat.gcd_le_left d hn)
  have hlt : place l.length d c (k + 1) < l.length := place_lt hn
  have hlt' : place l.length d c k < l.length := place_lt hn
  -- the place is not one of those that have been written
  have hclass : place l.length d c (k + 1) % l.length.gcd d = c :=
    (exists_place_succ_iff hn hc hlt).mp ⟨k, hk, rfl⟩
  have hfresh : newContent[place l.length d c (k + 1)]? = l[place l.length d c (k + 1)]? := by
    refine h.kept _ hlt ?_
    rintro (hbef | ⟨t, ht, hplace⟩)
    · omega
    · exact place_ne hn (Nat.succ_lt_succ ht) (by omega) hplace
  obtain ⟨tmp, htmp⟩ : ∃ tmp, l[place l.length d c (k + 1)]? = some tmp :=
    ⟨_, getElem?_eq_getElem hlt⟩
  have hend : place l.length d c (k + 1) = c ↔ k + 1 = l.length / l.length.gcd d := by
    constructor
    · intro heq
      by_contra hne
      refine place_ne (d := d) (c := c) hn (Nat.succ_pos k) (by omega) ?_
      rw [place_zero hcn, heq]
    · intro heq
      rw [heq, place_round hcn]
  refine ⟨tmp, htmp, ?_, ?_⟩
  · refine (h.set hlt (place_back (Nat.le_of_lt hd) hn) hdisplaced).congr fun j _ => ?_
    constructor
    · rintro ((hbef | ⟨t, ht, hplace⟩) | hplace)
      · exact .inl hbef
      · exact .inr ⟨t, Nat.lt_succ_of_lt ht, hplace⟩
      · exact .inr ⟨k, Nat.lt_succ_self k, hplace⟩
    · rintro (hbef | ⟨t, ht, hplace⟩)
      · exact .inl (.inl hbef)
      · rcases Nat.lt_succ_iff_lt_or_eq.mp ht with ht | rfl
        · exact .inl (.inr ⟨t, ht, hplace⟩)
        · exact .inr hplace
  · rw [moveCycle, next_index hlt' hd hfits, ← place_succ, load_eq_ok (hfresh.trans htmp), ok_bind,
      store_eq_set _ (by rw [h.length]; exact hlt), ok_bind]
    by_cases hlast : k + 1 = l.length / l.length.gcd d
    · rw [if_pos hlast, if_neg]
      rw [hend.mpr hlast, not_not]
    · rw [if_neg hlast, if_pos]
      intro heq
      exact hlast (hend.mp (Int.ofNat.inj heq))

theorem moveCycle_overflow {n i : Nat} (hi : i < n) (hd : d < n) (hn : n < 2 ^ 31)
    (hlarge : 2 ^ 31 ≤ i + d) (cycleStart : Int) (fuel : Nat) (displaced : T)
    (newContent : List T) (nMoved : Int) :
    moveCycle n d cycleStart (fuel + 1) i displaced newContent nMoved =
      .error .indexOutOfBounds := by
  have hle := int32_le_sub (n := (i : Int) + d) (by omega)
  rw [moveCycle, load, if_neg (by omega), error_bind]

theorem moveCycle_spec (hd : d < l.length) (hlen : l.length < 2 ^ 31)
    (hc : c < l.length.gcd d) (fuel : Nat) :
    ∀ (k : Nat) (newContent : List T) (displaced : T) (nMoved : Int),
      k < l.length / l.length.gcd d → l.length / l.length.gcd d ≤ k + fuel →
      MovedUpTo l d c k newContent → l[place l.length d c k]? = some displaced →
      ((∀ t, k ≤ t → t < l.length / l.length.gcd d → place l.length d c t + d < 2 ^ 31) →
        ∃ newContent', moveCycle l.length d c fuel (place l.length d c k) displaced newContent
            nMoved = .ok (newContent', nMoved + ((l.length / l.length.gcd d - k : Nat) : Int)) ∧
          MovedUpTo l d c (l.length / l.length.gcd d) newContent') ∧
      ((∃ t, k ≤ t ∧ t < l.length / l.length.gcd d ∧ 2 ^ 31 ≤ place l.length d c t + d) →
        moveCycle l.length d c fuel (place l.length d c k) displaced newContent nMoved =
          .error .indexOutOfBounds) := by
  have hn : 0 < l.length := by omega
  induction fuel with
  | zero => exact fun k _ _ _ hk hfuel => absurd hfuel (by omega)
  | succ fuel ih =>
    intro k newContent displaced nMoved hk hfuel h hdisplaced
    by_cases hfits : place l.length d c k + d < 2 ^ 31
    · obtain ⟨tmp, htmp, hmoved, hstep⟩ :=
        moveCycle_step hd hc hk h hdisplaced hfits fuel nMoved
      rw [hstep]
      by_cases hlast : k + 1 = l.length / l.length.gcd d
      · rw [if_pos hlast]
        have hcnt : nMoved + ((l.length / l.length.gcd d - k : Nat) : Int) = nMoved + 1 := by
          omega
        rw [hcnt, ← hlast]
        refine ⟨fun _ => ⟨_, rfl, hmoved⟩, ?_⟩
        rintro ⟨t, hkt, ht, hlarge⟩
        obtain rfl : t = k := by omega
        omega
      · rw [if_neg hlast]
        obtain ⟨hok, herr⟩ := ih (k + 1) _ tmp (nMoved + 1) (by omega) (by omega) hmoved htmp
        constructor
        · intro hall
          obtain ⟨newContent', hrun, hmoved'⟩ := hok fun t ht => hall t (by omega)
          refine ⟨newContent', ?_, hmoved'⟩
          have hcnt : nMoved + 1 + ((l.length / l.length.gcd d - (k + 1) : Nat) : Int) =
              nMoved + ((l.length / l.length.gcd d - k : Nat) : Int) := by omega
          rw [hrun, hcnt]
        · rintro ⟨t, hkt, ht, hlarge⟩
          refine herr ⟨t, ?_, ht, hlarge⟩
          rcases Nat.lt_or_eq_of_le hkt with hlt | rfl
          · exact hlt
          · omega
    · constructor
      · intro hall
        exact absurd (hall k (Nat.le_refl k) hk) hfits
      · intro _
        exact moveCycle_overflow (place_lt hn) hd hlen (by omega) c fuel _ _ _

theorem moveCycle_start (hd : d < l.length) (hlen : l.length < 2 ^ 31) (hc : c < l.length.gcd d)
    (h : Moved l d (fun j => j % l.length.gcd d < c) newContent) (nMoved : Int) :
    ∃ displaced, load newContent c = .ok displaced ∧
      ((∀ j, j < l.length → j % l.length.gcd d = c → j + d < 2 ^ 31) →
        ∃ newContent', moveCycle l.length d c l.length c displaced newContent nMoved =
            .ok (newContent', nMoved + ((l.length / l.length.gcd d : Nat) : Int)) ∧
          Moved l d (fun j => j % l.length.gcd d < c + 1) newContent') ∧
      ((∃ j, j < l.length ∧ j % l.length.gcd d = c ∧ 2 ^ 31 ≤ j + d) →
        moveCycle l.length d c l.length c displaced newContent nMoved =
          .error .indexOutOfBounds) := by
  have hn : 0 < l.length := by omega
  have hcn : c < l.length := Nat.lt_of_lt_of_le hc (Nat.gcd_le_left d hn)
  have hround : 0 < l.length / l.length.gcd d :=
    Nat.div_pos (Nat.gcd_le_left d hn) (Nat.gcd_pos_of_pos_left d hn)
  have hdisplaced : l[c]? = some l[c] := getElem?_eq_getElem hcn
  have hget : newContent[c]? = some l[c] := by
    rw [h.kept c hcn (by rw [Nat.mod_eq_of_lt hc]; exact Nat.lt_irrefl c), hdisplaced]
  have hstart : MovedUpTo l d c 0 newContent := by
    refine h.congr fun j _ => ⟨.inl, ?_⟩
    rintro (hbef | ⟨t, ht, -⟩)
    · exact hbef
    · exact absurd ht (Nat.not_lt_zero t)
  obtain ⟨hok, herr⟩ := moveCycle_spec hd hlen hc l.length 0 newContent l[c] nMoved hround
    (by rw [Nat.zero_add]; exact Nat.div_le_self _ _) hstart
    (by rw [place_zero hcn]; exact hdisplaced)
  rw [place_zero hcn] at hok
  rw [place_zero hcn] at herr
  refine ⟨l[c], load_eq_ok hget, ?_, ?_⟩
  · intro hall
    obtain ⟨newContent', hrun, hmoved⟩ := hok fun t _ ht =>
      hall _ (place_lt hn) ((exists_place_iff hn hc (place_lt hn)).mp ⟨t, ht, rfl⟩)
    refine ⟨newContent', hrun, hmoved.congr fun j hj => ?_⟩
    rw [exists_place_succ_iff hn hc hj]
    omega
  · rintro ⟨j, hj, hclass, hlarge⟩
    obtain ⟨t, ht, rfl⟩ := (exists_place_iff hn hc hj).mpr hclass
    exact herr ⟨t, Nat.zero_le t, ht, hlarge⟩

theorem moveCycles_spec (hpos : 0 < d) (hd : d < l.length) (hlen : l.length < 2 ^ 31)
    (fuel : Nat) :
    ∀ (c : Nat) (newContent : List T), c ≤ l.length.gcd d → l.length.gcd d < c + fuel →
      Moved l d (fun j => j % l.length.gcd d < c) newContent →
      ((∀ j, j < l.length → c ≤ j % l.length.gcd d → j + d < 2 ^ 31) →
        ∃ newContent', moveCycles l.length d fuel c newContent
            ((c * (l.length / l.length.gcd d) : Nat) : Int) = .ok newContent' ∧
          Moved l d (fun _ => True) newContent') ∧
      ((∃ j, j < l.length ∧ c ≤ j % l.length.gcd d ∧ 2 ^ 31 ≤ j + d) →
        moveCycles l.length d fuel c newContent ((c * (l.length / l.length.gcd d) : Nat) : Int) =
          .error .indexOutOfBounds) := by
  have hn : 0 < l.length := by omega
  have hgcd : 0 < l.length.gcd d := Nat.gcd_pos_of_pos_left d hn
  have hround : 0 < l.length / l.length.gcd d := Nat.div_pos (Nat.gcd_le_left d hn) hgcd
  have hsize : l.length.gcd d * (l.length / l.length.gcd d) = l.length :=
    Nat.mul_div_cancel' (Nat.gcd_dvd_left l.length d)
  induction fuel with
  | zero => exact fun c _ hc hfuel => absurd hfuel (by omega)
  | succ fuel ih =>
    intro c newContent hc hfuel h
    rcases Nat.lt_or_eq_of_le hc with hlt | rfl
    · have hmore : ((c * (l.length / l.length.gcd d) : Nat) : Int) ≠ l.length := by
        have hmul : c * (l.length / l.length.gcd d) <
            l.length.gcd d * (l.length / l.length.gcd d) := Nat.mul_lt_mul_of_pos_right hlt hround
        omega
      obtain ⟨displaced, hload, hok, herr⟩ := moveCycle_start hd hlen hlt h
        ((c * (l.length / l.length.gcd d) : Nat) : Int)
      rw [moveCycles, if_pos hmore, hload, ok_bind, Int.toNat_natCast]
      by_cases hfits : ∀ j, j < l.length → j % l.length.gcd d = c → j + d < 2 ^ 31
      · obtain ⟨newContent', hrun, hmoved⟩ := hok hfits
        have hcnt : ((c * (l.length / l.length.gcd d) : Nat) : Int) +
            ((l.length / l.length.gcd d : Nat) : Int) =
              (((c + 1) * (l.length / l.length.gcd d) : Nat) : Int) := by
          rw [Nat.succ_mul]
          rfl
        obtain ⟨hok', herr'⟩ := ih (c + 1) newContent' hlt (by omega) hmoved
        rw [hrun, hcnt]
        refine ⟨fun hall => hok' fun j hj hclass => hall j hj (by omega), ?_⟩
        rintro ⟨j, hj, hclass, hlarge⟩
        refine herr' ⟨j, hj, ?_, hlarge⟩
        rcases Nat.lt_or_eq_of_le hclass with hlater | heq
        · exact hlater
        · exact absurd (hfits j hj heq.symm) (by omega)
      · push Not at hfits
        rw [herr hfits]
        refine ⟨fun hall => ?_, fun _ => rfl⟩
        obtain ⟨j, hj, hclass, hlarge⟩ := hfits
        exact absurd (hall j hj (by omega)) (by omega)
    · have hlast : ∀ j, j < l.length → j % l.length.gcd d < l.length.gcd d :=
        fun j _ => Nat.mod_lt j hgcd
      rw [moveCycles, hsize, if_neg (by rw [not_not])]
      refine ⟨fun _ =>
        ⟨newContent, rfl, h.congr fun j hj => iff_of_true (hlast j hj) trivial⟩, ?_⟩
      rintro ⟨j, hj, hclass, -⟩
      have := hlast j hj
      omega

theorem setAll_eq_ok (hne : newContent ≠ []) :
    ∃ fired, setAll l newContent = .ok (newContent, fired) := by
  obtain ⟨l', fired, hrun, hfires⟩ : ∃ l' fired, (ListEdit.setAll newContent).run l =
      .ok (l', fired) ∧ (ListEdit.setAll newContent).Fires l l' fired := ListEdit.run_fires rfl
  rw [ListEdit.Fires, if_neg (show (ListEdit.setAll newContent).added ≠ [] from hne)] at hfires
  obtain ⟨front, back, hbef, hafter, -⟩ := hfires
  have hlen := congrArg List.length hbef
  rw [length_append, length_append, ListEdit.removed] at hlen
  obtain rfl : front = [] := eq_nil_of_length_eq_zero (by omega)
  obtain rfl : back = [] := eq_nil_of_length_eq_zero (by omega)
  rw [append_nil] at hafter
  subst hafter
  refine ⟨fired, ?_⟩
  rw [setAll, hrun]

theorem normalised {n : Nat} (hn : 0 < n) (distance : Int) :
    (if distance.tmod n < 0 then distance.tmod n + n else distance.tmod n) = distance % n := by
  rw [Int.tmod_eq_emod]
  have hnn := Int.emod_nonneg distance (Int.natCast_ne_zero.mpr hn.ne')
  have hlt := Int.emod_lt_of_pos distance (Int.natCast_pos.mpr hn)
  split_ifs <;> omega

/-- What a rotation has to do: the element at `i` goes to `(i + distance) mod n`, and at most one
change is fired. -/
def Rotates (l : List T) (distance : Int) : Prop :=
  ∃ l' fired, rotate l distance = .ok (l', fired) ∧ l'.length = l.length ∧
    ∀ (i : Nat) (x : T), l[i]? = some x → l'[((i + distance) % l.length).toNat]? = some x

theorem Moved.rotated (h : Moved l d (fun _ => True) newContent) (hd : d < l.length) {i : Nat}
    {x : T} (hx : l[i]? = some x) : newContent[(i + d) % l.length]? = some x := by
  have hi : i < l.length := (List.getElem?_eq_some_iff.mp hx).1
  have hback : ((i + d) % l.length + (l.length - d)) % l.length = i := by
    rw [Nat.mod_add_mod, Nat.add_assoc, Nat.add_sub_cancel' (Nat.le_of_lt hd), Nat.add_mod_right,
      Nat.mod_eq_of_lt hi]
  rw [h.moved _ (Nat.mod_lt _ (by omega)) trivial, hback, hx]

theorem moved_start : Moved l d (fun j => j % l.length.gcd d < 0) l :=
  ⟨rfl, fun _ _ hdone => absurd hdone (Nat.not_lt_zero _), fun _ _ _ => rfl⟩

theorem moveCycles_all (hpos : 0 < d) (hd : d < l.length) (hlen : l.length < 2 ^ 31) :
    (l.length - 1 + d < 2 ^ 31 → ∃ newContent,
      moveCycles l.length d (l.length + 1) 0 l 0 = .ok newContent ∧
        Moved l d (fun _ => True) newContent) ∧
    (2 ^ 31 ≤ l.length - 1 + d →
      moveCycles l.length d (l.length + 1) 0 l 0 = .error .indexOutOfBounds) := by
  have hgcd : l.length.gcd d ≤ l.length := Nat.gcd_le_left d (by omega)
  obtain ⟨hok, herr⟩ := moveCycles_spec hpos hd hlen (l.length + 1) 0 l (Nat.zero_le _)
    (by omega) moved_start
  rw [Nat.zero_mul] at hok herr
  constructor
  · intro hfits
    exact hok fun j hj _ => by omega
  · intro hlarge
    exact herr ⟨l.length - 1, by omega, Nat.zero_le _, hlarge⟩

theorem rotate_nil (distance : Int) : rotate ([] : List T) distance = .error .arithmetic := rfl

theorem rotate_of_ne_nil (hne : l ≠ []) (distance : Int) :
    rotate l distance =
      if distance % l.length = 0 then .ok (l, none)
      else
        match moveCycles l.length (distance % l.length) (l.length + 1) 0 l 0 with
        | .error failure => .error (.other failure)
        | .ok newContent => setAll l newContent := by
  have hn : 0 < l.length := length_pos_of_ne_nil hne
  rw [rotate, if_neg (Int.natCast_ne_zero.mpr hn.ne')]
  dsimp only
  rw [normalised hn, Int.toNat_natCast]

/-- `rotate` does what it has to do unless the list is empty or so large that an index of the
rotation does not fit into 32 bits. -/
theorem rotates_iff (l : List T) (distance : Int) (hlen : l.length < 2 ^ 31) :
    Rotates l distance ↔
      l ≠ [] ∧
        (distance % l.length = 0 ∨ l.length - 1 + distance % l.length < 2 ^ 31) := by
  by_cases hne : l = []
  · subst hne
    refine iff_of_false ?_ fun h => h.1 rfl
    rintro ⟨l', fired, hrun, -⟩
    rw [rotate_nil] at hrun
    exact nomatch hrun
  have hn : 0 < l.length := length_pos_of_ne_nil hne
  obtain ⟨d, hd⟩ := Int.eq_ofNat_of_zero_le
    (Int.emod_nonneg distance (Int.natCast_ne_zero.mpr hn.ne'))
  have hlt : d < l.length := by
    have := Int.emod_lt_of_pos distance (Int.natCast_pos.mpr hn)
    omega
  -- the target of an element only depends on the normalised distance
  have htarget : ∀ i : Nat, ((i + distance) % l.length).toNat = (i + d) % l.length := by
    intro i
    rw [← Int.add_emod_emod, hd, ← Int.natCast_add, ← Int.natCast_emod, Int.toNat_natCast]
  rw [Rotates, rotate_of_ne_nil hne, hd]
  by_cases hzero : d = 0
  · subst hzero
    refine iff_of_true ⟨l, none, if_pos rfl, rfl, ?_⟩ ⟨hne, .inl rfl⟩
    intro i x hx
    rw [htarget, Nat.add_zero, Nat.mod_eq_of_lt (List.getElem?_eq_some_iff.mp hx).1, hx]
  rw [if_neg (by omega)]
  obtain ⟨hok, herror⟩ := moveCycles_all (Nat.pos_of_ne_zero hzero) hlt hlen
  constructor
  · rintro ⟨l', fired, hrun, -⟩
    refine ⟨hne, .inr ?_⟩
    by_contra hlarge
    rw [herror (by omega)] at hrun
    exact nomatch hrun
  · rintro ⟨-, hfits⟩
    obtain ⟨newContent, hmoves, hmoved⟩ := hok (by omega)
    have hcontent : newContent ≠ [] := by
      rw [← length_pos_iff, hmoved.length]
      exact hn
    obtain ⟨fired, hset⟩ := setAll_eq_ok (l := l) hcontent
    refine ⟨newContent, fired, ?_, hmoved.length, ?_⟩
    · rw [hmoves]
      exact hset
    · intro i x hx
      rw [htarget]
      exact hmoved.rotated hlt hx

/-- Four elements, rotated to the left by more than their number. -/
theorem rotates_four : ([1, 2, 3, 4] : List Nat).length < 2 ^ 31 ∧
    Rotates [1, 2, 3, 4] (-6) :=
  ⟨by decide, (rotates_iff [1, 2, 3, 4] (-6) (by decide)).mpr (by decide)⟩

theorem rotate_empty : ¬Rotates ([] : List Nat) 1 := by
  rintro ⟨l', fired, hrun, -⟩
  exact nomatch hrun

end

end OpenJfx.Collections.FXCollections
