import OpenJfx.Data.Interleaving
import Mathlib.Data.List.Nodup

/-!
The `Playlist` of `HLSConnectionHolder`, with the fields of the holder that it
shares with the reader. A live playlist grows while it is played: the thread
that reloads it adds media files, and the reader waits on a semaphore when it
has taken all of them.
-/

namespace OpenJfx.Media.Hls

open Data

abbrev Text := List Char

/-- The fields that `addMediaFile` and `getNextMediaFile` use. -/
structure Playlist where
  isLive : Bool
  isLiveWaiting : Bool
  isLiveStop : Bool
  playlistURI : Text
  mediaFiles : List Text
  mediaFilesDiscontinuities : List Bool
  needBaseURI : Bool
  baseURI : Option Text
  sequenceNumber : Int
  sequenceNumberStart : Int
  sequenceNumberUpdated : Bool
  forceDiscontinuity : Bool
  mediaFileIndex : Int
  liveSemaphore : Nat
  isPlaylistClosed : Bool

namespace Playlist

def new (isLive : Bool) (playlistURI : Text) : Playlist where
  isLive := isLive
  isLiveWaiting := false
  isLiveStop := false
  playlistURI := playlistURI
  mediaFiles := []
  mediaFilesDiscontinuities := []
  needBaseURI := true
  baseURI := none
  sequenceNumber := -1
  sequenceNumberStart := -1
  sequenceNumberUpdated := false
  forceDiscontinuity := false
  mediaFileIndex := -1
  liveSemaphore := 0
  isPlaylistClosed := false

def isAbsolute (uri : Text) : Bool :=
  ['h', 't', 't', 'p', ':', '/', '/'].isPrefixOf uri ||
    ['h', 't', 't', 'p', 's', ':', '/', '/'].isPrefixOf uri

def directory (playlistURI : Text) : Text :=
  (playlistURI.reverse.dropWhile (· ≠ '/')).reverse

def setBaseURI (p : Playlist) (uri : Text) : Playlist :=
  if isAbsolute uri then { p with needBaseURI := false }
  else { p with baseURI := some (directory p.playlistURI), needBaseURI := false }

def setSequenceNumber (p : Playlist) (value : Int) : Playlist × Bool :=
  if p.sequenceNumberStart = -1 then ({ p with sequenceNumberStart := value }, true)
  else if p.sequenceNumber ≠ value then
    ({ p with sequenceNumberUpdated := true, sequenceNumber := value }, true)
  else (p, false)

def dropFiles : Nat → Playlist → Playlist
  | 0, p => p
  | index + 1, p =>
    dropFiles index
      { p with
        mediaFiles := p.mediaFiles.tail
        mediaFilesDiscontinuities := p.mediaFilesDiscontinuities.tail
        forceDiscontinuity := p.forceDiscontinuity || decide (p.mediaFileIndex = -1)
        mediaFileIndex :=
          if 0 ≤ p.mediaFileIndex then p.mediaFileIndex - 1 else p.mediaFileIndex }

def updateFiles (p : Playlist) (uri : Text) : Playlist :=
  if p.sequenceNumberUpdated then
    { (if uri ∈ p.mediaFiles then dropFiles (p.mediaFiles.idxOf uri) p else p) with
      sequenceNumberUpdated := false }
  else p

/-- The two lists get one more entry, and a reader that waits gets a permit. The start times
of a playlist that is not live are left out. -/
def append (p : Playlist) (uri : Text) (isDiscontinuity : Bool) : Playlist :=
  { p with
    mediaFiles := p.mediaFiles ++ [uri]
    mediaFilesDiscontinuities := p.mediaFilesDiscontinuities ++ [isDiscontinuity]
    liveSemaphore :=
      if p.isLive ∧ p.isLiveWaiting then p.liveSemaphore + 1 else p.liveSemaphore }

def addMediaFile (p : Playlist) (uri : Text) (isDiscontinuity : Bool) : Playlist :=
  let p := if p.needBaseURI then p.setBaseURI uri else p
  if p.isLive then
    let p := p.updateFiles uri
    if uri ∈ p.mediaFiles then p else p.append uri isDiscontinuity
  else p.append uri isDiscontinuity

/-- The string that is returned for a media file. -/
def address (baseURI : Option Text) (mediaFile : Text) : Text :=
  match baseURI with
  | some base => base ++ mediaFile
  | none => mediaFile

/-- The first part of `getNextMediaFile` under the lock. -/
def checkWaiting (p : Playlist) : Playlist :=
  { p with isLiveWaiting := decide ((p.mediaFiles.length : Int) ≤ p.mediaFileIndex + 1) }

/-- The second part of `getNextMediaFile` under the lock. -/
def takeNext (p : Playlist) : Playlist × Option Text :=
  let p := { p with mediaFileIndex := p.mediaFileIndex + 1 }
  (p, if p.mediaFileIndex < p.mediaFiles.length then
      (p.mediaFiles[p.mediaFileIndex.toNat]?).map (address p.baseURI)
    else none)

end Playlist

/-- Where the reader is in `getNextMediaFile`. -/
inductive Reader
  | idle
  | checked
  /-- It has got a permit, and `isLiveWaiting` is not yet reset. -/
  | acquired
  /-- It is about to take the next file. -/
  | taking

structure System where
  playlist : Playlist
  reader : Reader
  /-- What the calls of `getNextMediaFile` have returned, null as `none`. -/
  returned : List (Option Text)

namespace System

def start (isLive : Bool) (playlistURI : Text) : System :=
  ⟨Playlist.new isLive playlistURI, .idle, []⟩

def finish (s : System) (p : Playlist) (result : Option Text) : System :=
  ⟨p, .idle, s.returned ++ [result]⟩

def checkClosed (s : System) (p : Playlist) : System :=
  if p.isPlaylistClosed then s.finish p none else ⟨p, .taking, s.returned⟩

def read (s : System) : Option System :=
  match s.reader with
  | .idle =>
    if s.playlist.isLive then
      some
        { s with
          playlist := s.playlist.checkWaiting
          reader := .checked }
    else some { s with reader := .taking }
  | .checked =>
    if s.playlist.isLiveWaiting then
      match s.playlist.liveSemaphore with
      | 0 => none
      | permits + 1 =>
        some
          { s with
            playlist := { s.playlist with liveSemaphore := permits }
            reader := .acquired }
    else some (s.checkClosed s.playlist)
  | .acquired =>
    let p := { s.playlist with isLiveWaiting := false }
    if p.isLiveStop then some (s.finish { p with isLiveStop := false } none)
    else some (s.checkClosed p)
  | .taking =>
    match s.playlist.takeNext with
    | (p, result) => some (s.finish p result)

end System

inductive Step
  | setSequenceNumber (value : Int)
  | addMediaFile (uri : Text) (isDiscontinuity : Bool)
  | read

def step (s : System) : Step → Option System
  | .setSequenceNumber value =>
    some { s with playlist := (s.playlist.setSequenceNumber value).1 }
  | .addMediaFile uri isDiscontinuity =>
    some { s with playlist := s.playlist.addMediaFile uri isDiscontinuity }
  | .read => s.read

def Step.uri? : Step → Option Text
  | .addMediaFile uri _ => some uri
  | .setSequenceNumber _ | .read => none

/-- The media files that have been added in a run. -/
def added (steps : List Step) : List Text := steps.filterMap Step.uri?

/-- The base of the addresses, which the first media file decides on. -/
def baseOf (playlistURI : Text) : List Text → Option Text
  | [] => none
  | first :: _ => if Playlist.isAbsolute first then none else some (Playlist.directory playlistURI)

/-- A media file comes while the reader has its waiting flag set only if there is none yet that
the reader has not taken. -/
def OneForEachWait (s : System) : Step → Prop
  | .addMediaFile _ _ => s.playlist.isLiveWaiting = true →
      (s.playlist.mediaFiles.length : Int) ≤ s.playlist.mediaFileIndex + 1
  | .setSequenceNumber _ | .read => True

instance (s : System) : (i : Step) → Decidable (OneForEachWait s i)
  | .addMediaFile _ _ => inferInstanceAs (Decidable (_ → _))
  | .setSequenceNumber _ | .read => isTrue trivial

open List

/-- The number of media files that the reader has not taken. -/
def unread (s : System) (files : List Text) : Nat := files.length - s.returned.length

def PermitsAgree (s : System) (files : List Text) : Prop :=
  match s.reader with
  | .idle => s.playlist.isLiveWaiting = false ∧ s.playlist.liveSemaphore = 0
  | .checked =>
    if s.playlist.isLiveWaiting then
      s.playlist.liveSemaphore = unread s files ∧ unread s files ≤ 1
    else s.playlist.liveSemaphore = 0 ∧ 0 < unread s files
  | .acquired => s.playlist.isLiveWaiting = true ∧ s.playlist.liveSemaphore = 0 ∧
      unread s files = 1
  | .taking => s.playlist.isLiveWaiting = false ∧ s.playlist.liveSemaphore = 0 ∧
      0 < unread s files

/-- The files that were added are all there, and the reader has got the first ones. -/
structure Delivering (playlistURI : Text) (files : List Text) (s : System) : Prop where
  isLive : s.playlist.isLive = true
  notClosed : s.playlist.isPlaylistClosed = false
  notStopped : s.playlist.isLiveStop = false
  playlistURI_eq : s.playlist.playlistURI = playlistURI
  mediaFiles : s.playlist.mediaFiles = files
  needBaseURI : s.playlist.needBaseURI = files.isEmpty
  baseURI : s.playlist.baseURI = baseOf playlistURI files
  index : s.playlist.mediaFileIndex + 1 = s.returned.length
  length_le : s.returned.length ≤ files.length
  returned : s.returned = (files.take s.returned.length).map fun file =>
    some (Playlist.address (baseOf playlistURI files) file)
  permits : PermitsAgree s files

theorem delivering_start (playlistURI : Text) :
    Delivering playlistURI [] (System.start true playlistURI) := by
  constructor <;> simp [System.start, Playlist.new, baseOf, PermitsAgree]

section

variable {playlistURI : Text} {files : List Text} {s : System}

theorem updateFiles_of_new {p : Playlist} {uri : Text} (hnew : uri ∉ p.mediaFiles) :
    p.updateFiles uri = { p with sequenceNumberUpdated := false } := by
  rw [Playlist.updateFiles]
  split
  · rfl
  · rename_i hflag
    rw [Bool.not_eq_true] at hflag
    rw [← hflag]

theorem baseURI_settled {p : Playlist} (hneed : p.needBaseURI = files.isEmpty)
    (hbase : p.baseURI = baseOf p.playlistURI files) (uri : Text) :
    (if p.needBaseURI then p.setBaseURI uri else p) =
      { p with needBaseURI := false, baseURI := baseOf p.playlistURI (files ++ [uri]) } := by
  rcases files with _ | ⟨first, rest⟩
  · rw [isEmpty_nil] at hneed
    rw [if_pos hneed, Playlist.setBaseURI, nil_append, baseOf]
    split
    · rw [hbase]
      rfl
    · rfl
  · have hsame : baseOf p.playlistURI (first :: rest ++ [uri]) = p.baseURI := hbase.symm
    rw [isEmpty_cons] at hneed
    rw [if_neg (by rw [hneed]; exact Bool.false_ne_true), hsame, ← hneed]

theorem addMediaFile_eq (h : Delivering playlistURI files s) {uri : Text} (hnew : uri ∉ files)
    (isDiscontinuity : Bool) :
    s.playlist.addMediaFile uri isDiscontinuity =
      { s.playlist with
        needBaseURI := false
        baseURI := baseOf playlistURI (files ++ [uri])
        sequenceNumberUpdated := false
        mediaFiles := files ++ [uri]
        mediaFilesDiscontinuities := s.playlist.mediaFilesDiscontinuities ++ [isDiscontinuity]
        liveSemaphore := if s.playlist.isLiveWaiting then s.playlist.liveSemaphore + 1
          else s.playlist.liveSemaphore } := by
  have hnew' : uri ∉ s.playlist.mediaFiles := by
    rwa [h.mediaFiles]
  have hbase : s.playlist.baseURI = baseOf s.playlist.playlistURI files := by
    rw [h.playlistURI_eq, h.baseURI]
  have hwaiting : (s.playlist.isLive = true ∧ s.playlist.isLiveWaiting = true) =
      (s.playlist.isLiveWaiting = true) := by
    rw [h.isLive]
    simp
  rw [Playlist.addMediaFile, baseURI_settled h.needBaseURI hbase]
  rw [if_pos h.isLive, updateFiles_of_new (by exact hnew'), if_neg hnew', Playlist.append]
  simp only [hwaiting, h.mediaFiles, h.playlistURI_eq]

theorem delivering_add (h : Delivering playlistURI files s) {uri : Text} (hnew : uri ∉ files)
    (isDiscontinuity : Bool) (hturn : OneForEachWait s (.addMediaFile uri isDiscontinuity)) :
    Delivering playlistURI (files ++ [uri])
      { s with playlist := s.playlist.addMediaFile uri isDiscontinuity } := by
  rw [addMediaFile_eq h hnew]
  have hidx := h.index
  have hle := h.length_le
  have hwaits : s.playlist.isLiveWaiting = true → unread s files = 0 := by
    intro hwaiting
    have := hturn hwaiting
    rw [h.mediaFiles] at this
    rw [unread]
    omega
  have hunread : files.length + 1 - s.returned.length = unread s files + 1 := by
    rw [unread]
    omega
  refine ⟨h.isLive, h.notClosed, h.notStopped, h.playlistURI_eq, rfl, by simp, rfl, hidx, ?_, ?_,
    ?_⟩
  · rw [length_append]
    exact Nat.le_add_right_of_le hle
  · rw [take_append_of_le_length hle]
    rcases files with _ | ⟨first, rest⟩
    · have hemp := h.returned
      simpa using hemp
    · exact h.returned
  · have hpermits := h.permits
    simp only [PermitsAgree] at hpermits ⊢
    cases hreader : s.reader with
    | idle =>
      simp only [hreader] at hpermits ⊢
      rw [if_neg (by simp [hpermits.1])]
      exact hpermits
    | checked =>
      simp only [hreader, unread, length_append, length_singleton,
        hunread] at hpermits ⊢
      cases hwaiting : s.playlist.isLiveWaiting with
      | true =>
        have hzero := hwaits hwaiting
        simp only [hwaiting, if_true] at hpermits ⊢
        omega
      | false =>
        simp only [hwaiting] at hpermits ⊢
        exact ⟨hpermits.1, Nat.succ_pos _⟩
    | acquired =>
      -- the flag is set and a file is there, so no other may come
      simp only [hreader] at hpermits
      have := hwaits hpermits.1
      omega
    | taking =>
      simp only [hreader, unread, length_append, length_singleton,
        hunread] at hpermits ⊢
      rw [if_neg (by simp [hpermits.1])]
      exact ⟨hpermits.1, hpermits.2.1, Nat.succ_pos _⟩

theorem delivering_setSequenceNumber (h : Delivering playlistURI files s) (value : Int) :
    Delivering playlistURI files
      { s with playlist := (s.playlist.setSequenceNumber value).1 } := by
  rw [Playlist.setSequenceNumber]
  split_ifs
  · exact ⟨h.isLive, h.notClosed, h.notStopped, h.playlistURI_eq, h.mediaFiles, h.needBaseURI,
      h.baseURI, h.index, h.length_le, h.returned, h.permits⟩
  · exact ⟨h.isLive, h.notClosed, h.notStopped, h.playlistURI_eq, h.mediaFiles, h.needBaseURI,
      h.baseURI, h.index, h.length_le, h.returned, h.permits⟩
  · exact h

theorem takeNext_eq (h : Delivering playlistURI files s)
    (hunread : s.returned.length < files.length) :
    s.playlist.takeNext =
      ({ s.playlist with mediaFileIndex := s.returned.length },
        some (Playlist.address (baseOf playlistURI files) files[s.returned.length])) := by
  rw [Playlist.takeNext, h.index]
  simp only [h.mediaFiles, h.baseURI, Int.toNat_natCast, getElem?_eq_getElem hunread,
    Option.map_some]
  rw [if_pos (by exact_mod_cast hunread)]

theorem delivering_read (h : Delivering playlistURI files s) {t : System}
    (hread : s.read = some t) : Delivering playlistURI files t := by
  have hpermits := h.permits
  have hidx := h.index
  rw [PermitsAgree] at hpermits
  rw [System.read] at hread
  cases hreader : s.reader with
  | idle =>
    simp only [hreader, h.isLive, if_true, Option.some.injEq] at hpermits hread
    subst hread
    refine ⟨h.isLive, h.notClosed, h.notStopped, h.playlistURI_eq, h.mediaFiles, h.needBaseURI,
      h.baseURI, h.index, h.length_le, h.returned, ?_⟩
    simp only [PermitsAgree, Playlist.checkWaiting, h.mediaFiles, unread, decide_eq_true_eq]
    split <;> omega
  | checked =>
    simp only [hreader] at hpermits hread
    split at hread
    · rename_i hwaiting
      rw [if_pos hwaiting] at hpermits
      split at hread
      · cases hread
      · rename_i permits hsemaphore
        cases hread
        refine ⟨h.isLive, h.notClosed, h.notStopped, h.playlistURI_eq, h.mediaFiles,
          h.needBaseURI, h.baseURI, h.index, h.length_le, h.returned, hwaiting, ?_⟩
        simp only [unread] at hpermits ⊢
        omega
    · rename_i hwaiting
      rw [if_neg hwaiting] at hpermits
      rw [Bool.not_eq_true] at hwaiting
      rw [System.checkClosed, h.notClosed] at hread
      cases hread
      exact ⟨h.isLive, h.notClosed, h.notStopped, h.playlistURI_eq, h.mediaFiles,
        h.needBaseURI, h.baseURI, h.index, h.length_le, h.returned, hwaiting, hpermits⟩
  | acquired =>
    simp only [hreader] at hpermits hread
    rw [if_neg (by rw [h.notStopped]; exact Bool.false_ne_true), System.checkClosed,
      if_neg (by rw [h.notClosed]; exact Bool.false_ne_true)] at hread
    cases hread
    refine ⟨h.isLive, h.notClosed, h.notStopped, h.playlistURI_eq, h.mediaFiles,
      h.needBaseURI, h.baseURI, h.index, h.length_le, h.returned, rfl, hpermits.2.1, ?_⟩
    simp only [unread] at hpermits ⊢
    omega
  | taking =>
    simp only [hreader, unread] at hpermits
    have hunread : s.returned.length < files.length := by omega
    simp only [hreader, takeNext_eq h hunread, Option.some.injEq] at hread
    subst hread
    refine ⟨h.isLive, h.notClosed, h.notStopped, h.playlistURI_eq, h.mediaFiles,
      h.needBaseURI, h.baseURI, ?_, ?_, ?_, hpermits.1, hpermits.2.1⟩
    · simp [System.finish]
    · simp only [System.finish, length_append, length_singleton]
      exact hunread
    · simp only [System.finish, length_append, length_singleton]
      rw [take_succ_eq_append_getElem hunread, map_append, ← h.returned]
      rfl

end

theorem run_delivering (playlistURI : Text) (steps : List Step) :
    ∀ (files : List Text) (s t : System), Delivering playlistURI files s →
      (files ++ added steps).Nodup → EachStep step OneForEachWait s steps →
      runSteps step s steps = some t → Delivering playlistURI (files ++ added steps) t := by
  induction steps with
  | nil =>
    intro files s t h _ _ hrun
    cases hrun
    simpa [added] using h
  | cons i steps ih =>
    rintro files s t h hnd ⟨hturn, hrest⟩ hrun
    rcases runSteps_cons_iff.mp hrun with ⟨m, hstep, hrun'⟩
    cases i with
    | setSequenceNumber value =>
      cases hstep
      exact ih files _ t (delivering_setSequenceNumber h value) hnd (hrest _ rfl) hrun'
    | read => exact ih files m t (delivering_read h hstep) hnd (hrest m hstep) hrun'
    | addMediaFile uri isDiscontinuity =>
      have hadded : files ++ added (.addMediaFile uri isDiscontinuity :: steps) =
          files ++ [uri] ++ added steps := by
        rw [append_assoc]
        rfl
      rw [hadded] at hnd ⊢
      have hnew : uri ∉ files := by
        have hpre := hnd.of_append_left
        rw [nodup_append] at hpre
        intro hmem
        exact hpre.2.2 uri hmem uri (by simp) rfl
      cases hstep
      exact ih _ _ t (delivering_add h hnew isDiscontinuity hturn) hnd (hrest _ rfl) hrun'

/-- What the reader has got are the first of the added media files, each one once and in their
order; when it cannot go on, it has got them all. -/
theorem delivered_in_order (playlistURI : Text) (steps : List Step) (s : System)
    (hdistinct : (added steps).Nodup)
    (hturn : EachStep step OneForEachWait (System.start true playlistURI) steps)
    (hrun : runSteps step (System.start true playlistURI) steps = some s) :
    s.returned <+: ((added steps).map fun file =>
        some (Playlist.address (baseOf playlistURI (added steps)) file)) ∧
      none ∉ s.returned ∧
      (s.read = none → s.returned = (added steps).map fun file =>
        some (Playlist.address (baseOf playlistURI (added steps)) file)) := by
  have h := run_delivering playlistURI steps [] _ s (delivering_start playlistURI) hdistinct hturn
    hrun
  rw [nil_append] at h
  refine ⟨?_, ?_, ?_⟩
  · rw [h.returned, map_take]
    exact take_prefix _ _
  · intro hnull
    rw [h.returned] at hnull
    obtain ⟨file, -, hfile⟩ := mem_map.mp hnull
    cases hfile
  · intro hblocked
    have hall : (added steps).length ≤ s.returned.length := by
      have hpermits := h.permits
      rw [PermitsAgree] at hpermits
      rw [System.read] at hblocked
      cases hreader : s.reader with
      | idle | acquired =>
        simp only [hreader] at hblocked
        split at hblocked <;> cases hblocked
      | checked =>
        simp only [hreader] at hpermits hblocked
        split at hblocked
        · rename_i hwaiting
          rw [if_pos hwaiting] at hpermits
          split at hblocked
          · rename_i hzero
            simp only [unread] at hpermits
            omega
          · cases hblocked
        · cases hblocked
      | taking =>
        simp only [hreader] at hblocked
        cases hblocked
    rw [h.returned, take_of_length_le hall]

/-- A file that comes while the reader waits, and one that comes before the next call. -/
theorem delivered_in_order_two_files :
    ∃ s, runSteps step (System.start true []) [.read, .addMediaFile ['a'] false, .read, .read,
        .read, .addMediaFile ['b'] false, .read, .read, .read] = some s ∧
      s.returned = [some ['a'], some ['b']] ∧ none ∉ s.returned := by
  have hdelivered := delivered_in_order [] [.read, .addMediaFile ['a'] false, .read, .read, .read,
    .addMediaFile ['b'] false, .read, .read, .read] _ (by decide) (by decide) rfl
  exact ⟨_, rfl, rfl, hdelivered.2.1⟩

/-- Two files end one wait with two permits. The second permit ends the wait for a third file
before this has come: the reader gets null, and the third file is passed over. -/
theorem null_after_two_files :
    (added [.read, .addMediaFile ['a'] false, .addMediaFile ['b'] false, .read, .read, .read,
        .read, .read, .read, .read, .read, .read, .read, .addMediaFile ['c'] false,
        .read]).Nodup ∧
      ∃ s, runSteps step (System.start true []) [.read, .addMediaFile ['a'] false,
          .addMediaFile ['b'] false, .read, .read, .read, .read, .read, .read, .read, .read, .read,
          .read, .addMediaFile ['c'] false, .read] = some s ∧
        s.returned = [some ['a'], some ['b'], none] ∧ none ∈ s.returned ∧
        s.playlist.mediaFileIndex = 2 ∧ s.playlist.isLiveWaiting = true := by
  exact ⟨by decide, _, rfl, rfl, by decide, rfl, rfl⟩

end OpenJfx.Media.Hls
