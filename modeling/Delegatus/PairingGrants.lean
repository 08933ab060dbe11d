import Delegatus.PairingCodes
import Delegatus.Runs
import Mathlib

/-!
# What a pairing code grants

`Effect` says once what a call can do to the file, and `step_effect` that every call does one
of these. `Sound` is kept by every call whatever its clock reads, and carries that a code
grants once and that a spent code never grants again. What depends on the time, that an
expired code never grants, that one code is live and that five failures a minute are counted,
holds of runs whose clock does not go back (`Forward`).
-/

namespace Delegatus.PairingCodes

open ArrayCallbacks Runs

/-! ### What a call does to the file -/

inductive Effect (file : Grants) (now : Nat → Int) : Grants → Prop where
  | unchanged : Effect file now file
  | minted (code : PairCode) (hserial : code.serial = file.minted) (hburned : code.burned = false)
      (hfailures : code.failures = []) :
      Effect file now
        { file with codes := retireCodes now file.codes ++ [code], minted := file.minted + 1 }
  | cancelled (id : String) : Effect file now (cancelCode id file)
  | probed (wanted : Int → PairCode → Bool) :
      Effect file now
        { file with codes := updateAt wanted markUsed now file.codes }
  | failed (wanted : Int → PairCode → Bool) (code : PairCode)
      (hfind : findAt wanted now file.codes = some code)
      (hrecent : (recentFailures (later now 2) code).length < 5) :
      Effect file now
        { file with
          codes := updateAt wanted
            (countFailure (recentFailures (later now 2) code) (now (code.failures.length + 2))) now
            file.codes
          failed := file.failed ++ [(code.serial, now (code.failures.length + 2))] }
  | granted (wanted : Int → PairCode → Bool) (code : PairCode) (grant : Grant)
      (hfind : findAt wanted now file.codes = some code) (hused : code.used = false)
      (hexpires : now 1 < code.expires) (horigin : grant.origin = code.serial) :
      Effect file now
        { file with
          codes := updateAt wanted markUsed now file.codes
          grants := file.grants ++ [grant] }

theorem mintCode_effect (sha : String → String) (install : Install) (check : CheckCode)
    (draws : List (List UInt8)) (tailBytes : List UInt8) (now : Nat → Int) (file : Grants) :
    Effect file now (mintCode sha install check draws tailBytes now file).1 := by
  unfold mintCode
  split_ifs
  · exact .unchanged
  · exact .unchanged
  · exact .unchanged
  · exact .unchanged
  · exact .unchanged
  · exact .unchanged
  · dsimp only
    split
    · exact .unchanged
    · exact .minted _ rfl rfl rfl

theorem probePair_effect (install : Install) (id authorization : Option String)
    (now : Nat → Int) (file : Grants) :
    Effect file now (probePair install id authorization now file).1 := by
  unfold probePair
  split
  · exact .unchanged
  · split
    · exact .unchanged
    · dsimp only
      split
      · exact .unchanged
      · split
        · exact .probed _
        · exact .unchanged

theorem pairIncoming_effect (sha : String → String) (install : Install) (input : Option PairInput)
    (grantId token : String) (now : Nat → Int) (file : Grants) :
    Effect file now (pairIncoming sha install input grantId token now file).1 := by
  unfold pairIncoming
  split
  · exact .unchanged
  · dsimp only
    split
    · exact .unchanged
    · split
      · exact .unchanged
      · rename_i code hfind
        split_ifs with hspent hdead hlimit hfailed hkey
        · exact .unchanged
        · exact .unchanged
        · exact .unchanged
        · exact .failed _ code hfind (by omega)
        · exact .unchanged
        · split
          · exact .unchanged
          · simp only [Bool.or_eq_true, decide_eq_true_eq, not_or, Bool.not_eq_true, not_le]
              at hdead
            exact .granted _ code _ hfind hdead.1 hdead.2 rfl

theorem step_effect (sha : String → String) (file : Grants) (call : Call) :
    Effect file call.now (step sha file call).1 := by
  obtain ⟨op, now⟩ := call
  cases op with
  | mint install check draws tailBytes =>
    exact mintCode_effect sha install check draws tailBytes now file
  | cancel id => exact .cancelled id
  | probe install id authorization => exact probePair_effect install id authorization now file
  | pair install input grantId token =>
    exact pairIncoming_effect sha install input grantId token now file

/-! ### Codes and grants stay what they are -/

/-- What a call leaves of a code. -/
structure Evolves (code next : PairCode) : Prop where
  serial : next.serial = code.serial
  expires : next.expires = code.expires
  used : code.used = true → next.used = true
  burned : (code.burned = true → code.used = true) → next.burned = true → next.used = true

theorem Evolves.refl (code : PairCode) : Evolves code code :=
  ⟨rfl, rfl, id, id⟩

theorem Evolves.markUsed (code : PairCode) : Evolves code (markUsed code) :=
  ⟨rfl, rfl, fun _ => rfl, fun _ _ => rfl⟩

theorem Evolves.countFailure (recent : List Int) (time : Int) (code : PairCode) :
    Evolves code (countFailure recent time code) := by
  refine ⟨rfl, rfl, ?_, ?_⟩
  · intro hused
    simp [PairingCodes.countFailure, hused]
  · intro hburned h
    simp only [PairingCodes.countFailure, Bool.or_eq_true] at h ⊢
    exact h.imp_left hburned

theorem evolves_updateAt {wanted : Int → PairCode → Bool} {f : PairCode → PairCode}
    (hf : ∀ code, Evolves code (f code)) {now : Nat → Int} {codes : List PairCode} {next : PairCode}
    (h : next ∈ updateAt wanted f now codes) : ∃ code ∈ codes, Evolves code next := by
  rcases mem_updateAt h with hold | ⟨code, hfind, rfl⟩
  · exact ⟨next, hold, Evolves.refl next⟩
  · exact ⟨code, (findAt_some hfind).1, hf code⟩

/-- A code that a mint leaves in the file unused was used or expired before. -/
theorem retireCodes_cases {now : Nat → Int} {codes : List PairCode} {next : PairCode}
    (h : next ∈ retireCodes now codes) :
    ∃ code ∈ codes, next = markUsed code ∨
      next = code ∧ (code.used = false → ∃ n, code.expires ≤ now n) := by
  obtain ⟨code, hcode, n, rfl⟩ := mem_mapAt h
  refine ⟨code, (filterAt_sublist _ _ _).subset hcode, ?_⟩
  split
  · exact Or.inl rfl
  · rename_i hlive
    refine Or.inr ⟨rfl, fun hused => ⟨codes.length + n, ?_⟩⟩
    simp only [hused, Bool.not_false, Bool.true_and, decide_eq_true_eq, not_lt] at hlive
    exact hlive

/-- A code of the file afterwards was minted by the call, or was there before. In the second
    case a call that minted leaves it used or expired. -/
theorem Effect.codes {file next : Grants} {now : Nat → Int} (h : Effect file now next)
    {code : PairCode} (hcode : code ∈ next.codes) :
    (∃ old ∈ file.codes, Evolves old code ∧
        (next.minted ≠ file.minted → code.used = false → ∃ n, code.expires ≤ now n)) ∨
      code.serial = file.minted ∧ code.burned = false ∧ next.minted = file.minted + 1 := by
  have hkept : (∃ old ∈ file.codes, Evolves old code) → next.minted = file.minted →
      ∃ old ∈ file.codes, Evolves old code ∧
        (next.minted ≠ file.minted → code.used = false → ∃ n, code.expires ≤ now n) :=
    fun ⟨old, hold, hevolves⟩ hsame => ⟨old, hold, hevolves, fun hne => absurd hsame hne⟩
  cases h with
  | unchanged => exact Or.inl (hkept ⟨code, hcode, Evolves.refl code⟩ rfl)
  | minted new hserial hburned hfailures =>
    rcases List.mem_append.mp hcode with hcode | hcode
    · obtain ⟨old, hold, rfl | ⟨rfl, hretired⟩⟩ := retireCodes_cases hcode
      · exact Or.inl ⟨old, hold, Evolves.markUsed old, fun _ himpossible => by cases himpossible⟩
      · exact Or.inl ⟨code, hold, Evolves.refl code, fun _ => hretired⟩
    · rw [List.mem_singleton.mp hcode]
      exact Or.inr ⟨hserial, hburned, rfl⟩
  | cancelled id =>
    exact Or.inl (hkept ⟨code, List.mem_of_mem_filter hcode, Evolves.refl code⟩ rfl)
  | probed wanted => exact Or.inl (hkept (evolves_updateAt Evolves.markUsed hcode) rfl)
  | failed wanted new hfind hrecent =>
    exact Or.inl (hkept (evolves_updateAt (Evolves.countFailure _ _) hcode) rfl)
  | granted wanted new grant hfind hused hexpires horigin =>
    exact Or.inl (hkept (evolves_updateAt Evolves.markUsed hcode) rfl)

theorem Effect.minted_le {file next : Grants} {now : Nat → Int} (h : Effect file now next) :
    file.minted ≤ next.minted := by
  cases h with
  | minted new hserial hburned hfailures => exact Nat.le_succ file.minted
  | unchanged => exact Nat.le_refl _
  | cancelled id => exact Nat.le_refl _
  | probed wanted => exact Nat.le_refl _
  | failed wanted new hfind hrecent => exact Nat.le_refl _
  | granted wanted new grant hfind hused hexpires horigin => exact Nat.le_refl _

/-- The code with this serial was minted, and is used or no longer in the file. -/
def Spent (file : Grants) (serial : Nat) : Prop :=
  serial < file.minted ∧ ∀ code ∈ file.codes, code.serial = serial → code.used = true

theorem Effect.spent {file next : Grants} {now : Nat → Int} (h : Effect file now next)
    {serial : Nat} (hspent : Spent file serial) : Spent next serial := by
  obtain ⟨hminted, hused⟩ := hspent
  refine ⟨Nat.lt_of_lt_of_le hminted h.minted_le, ?_⟩
  intro code hcode hserial
  rcases h.codes hcode with ⟨old, hold, hevolves, -⟩ | ⟨hnew, -, -⟩
  · exact hevolves.used (hused old hold (by rw [← hevolves.serial]; exact hserial))
  · omega

/-- What every file that calls lead to satisfies, whatever their clocks read. -/
structure Sound (file : Grants) : Prop where
  serial_lt : ∀ code ∈ file.codes, code.serial < file.minted
  serials : (file.codes.map (·.serial)).Nodup
  burned : ∀ code ∈ file.codes, code.burned = true → code.used = true
  granted : ∀ grant ∈ file.grants, Spent file grant.origin
  once : (file.grants.map (·.origin)).Nodup

theorem serials_retireCodes (now : Nat → Int) (codes : List PairCode) :
    ((retireCodes now codes).map (·.serial)).Sublist (codes.map (·.serial)) := by
  have hkeep : ∀ (t : Int) (entry : PairCode),
      (if !entry.used && entry.expires > t then markUsed entry else entry).serial = entry.serial := by
    intro t entry
    split <;> rfl
  unfold retireCodes
  rw [map_mapAt hkeep]
  exact (filterAt_sublist _ _ _).map _

theorem serials_updateAt {wanted : Int → PairCode → Bool} {f : PairCode → PairCode}
    (hf : ∀ code, Evolves code (f code)) (now : Nat → Int) (codes : List PairCode) :
    (updateAt wanted f now codes).map (·.serial) = codes.map (·.serial) :=
  map_updateAt (fun code => (hf code).serial) wanted now codes

theorem Effect.serials {file next : Grants} {now : Nat → Int} (h : Effect file now next)
    (hsound : Sound file) : (next.codes.map (·.serial)).Nodup := by
  cases h with
  | unchanged => exact hsound.serials
  | minted new hserial hburned hfailures =>
    have hold := serials_retireCodes now file.codes
    rw [List.map_append, List.map_singleton, hserial]
    refine List.nodup_append.mpr ⟨hsound.serials.sublist hold, List.nodup_singleton _, ?_⟩
    intro serial hmem other hother
    obtain ⟨code, hcode, rfl⟩ := List.mem_map.mp (hold.subset hmem)
    rw [List.mem_singleton.mp hother]
    exact Nat.ne_of_lt (hsound.serial_lt code hcode)
  | cancelled id => exact hsound.serials.sublist (List.filter_sublist.map _)
  | probed wanted =>
    rw [serials_updateAt Evolves.markUsed]
    exact hsound.serials
  | failed wanted new hfind hrecent =>
    rw [serials_updateAt (Evolves.countFailure _ _)]
    exact hsound.serials
  | granted wanted new grant hfind hused hexpires horigin =>
    rw [serials_updateAt Evolves.markUsed]
    exact hsound.serials

/-- After an update the found code is the rewritten one, and the others are other codes. -/
theorem mem_updateAt_serial {wanted : Int → PairCode → Bool} {f : PairCode → PairCode}
    (hf : ∀ code, Evolves code (f code)) {now : Nat → Int} {codes : List PairCode}
    {found code : PairCode} (hserials : (codes.map (·.serial)).Nodup)
    (hfind : findAt wanted now codes = some found) (hcode : code ∈ updateAt wanted f now codes) :
    code = f found ∨ code ∈ codes ∧ code.serial ≠ found.serial := by
  have hnodup : ((updateAt wanted f now codes).map (·.serial)).Nodup := by
    rw [serials_updateAt hf]
    exact hserials
  have hmarked := mem_updateAt_of_findAt f hfind
  rcases mem_updateAt hcode with hold | ⟨other, hother, rfl⟩
  · by_cases hserial : code.serial = found.serial
    · exact Or.inl (List.inj_on_of_nodup_map hnodup hcode hmarked
        (hserial.trans (hf found).serial.symm))
    · exact Or.inr ⟨hold, hserial⟩
  · rw [hfind] at hother
    cases hother
    exact Or.inl rfl

/-- A call grants nothing, or gives the grant of one live code and spends it. -/
theorem Effect.grants {file next : Grants} {now : Nat → Int} (h : Effect file now next)
    (hsound : Sound file) :
    next.grants = file.grants ∨
      ∃ code ∈ file.codes, ∃ grant, code.used = false ∧ now 1 < code.expires ∧
        grant.origin = code.serial ∧ next.grants = file.grants ++ [grant] ∧
        Spent next grant.origin := by
  cases h with
  | unchanged => exact Or.inl rfl
  | minted new hserial hburned hfailures => exact Or.inl rfl
  | cancelled id => exact Or.inl rfl
  | probed wanted => exact Or.inl rfl
  | failed wanted new hfind hrecent => exact Or.inl rfl
  | granted wanted code grant hfind hused hexpires horigin =>
    have hcode := (findAt_some hfind).1
    refine Or.inr ⟨code, hcode, grant, hused, hexpires, horigin, rfl, ?_, ?_⟩
    · rw [horigin]
      exact hsound.serial_lt code hcode
    · intro other hother hserial
      rcases mem_updateAt_serial Evolves.markUsed hsound.serials hfind hother with hsame | ⟨-, hne⟩
      · rw [hsame]
        rfl
      · exact absurd (hserial.trans horigin) hne

theorem Effect.sound {file next : Grants} {now : Nat → Int} (h : Effect file now next)
    (hsound : Sound file) : Sound next := by
  refine ⟨?_, h.serials hsound, ?_, ?_, ?_⟩
  · intro code hcode
    rcases h.codes hcode with ⟨old, hold, hevolves, -⟩ | ⟨hnew, -, hminted⟩
    · rw [hevolves.serial]
      exact Nat.lt_of_lt_of_le (hsound.serial_lt old hold) h.minted_le
    · omega
  · intro code hcode
    rcases h.codes hcode with ⟨old, hold, hevolves, -⟩ | ⟨-, hburned, -⟩
    · exact hevolves.burned (hsound.burned old hold)
    · rw [hburned]
      intro himpossible
      cases himpossible
  · intro grant hgrant
    rcases h.grants hsound with hsame | ⟨code, -, new, -, -, -, hgrants, hspent⟩
    · exact h.spent (hsound.granted grant (hsame ▸ hgrant))
    · rw [hgrants, List.mem_append, List.mem_singleton] at hgrant
      rcases hgrant with hgrant | rfl
      · exact h.spent (hsound.granted grant hgrant)
      · exact hspent
  · rcases h.grants hsound with hsame | ⟨code, hcode, new, hused, -, horigin, hgrants, -⟩
    · rw [hsame]
      exact hsound.once
    · rw [hgrants, List.map_append, List.map_singleton]
      refine List.nodup_append.mpr ⟨hsound.once, List.nodup_singleton _, ?_⟩
      intro origin hmem other hother heq
      obtain ⟨grant, hgrant, rfl⟩ := List.mem_map.mp hmem
      rw [List.mem_singleton.mp hother, horigin] at heq
      have hspent := (hsound.granted grant hgrant).2 code hcode heq.symm
      rw [hused] at hspent
      cases hspent

/-! ### A code that is gone never grants -/

/-- The code with this serial is expired, or gone from the file. -/
def Expired (file : Grants) (serial : Nat) (time : Int) : Prop :=
  serial < file.minted ∧ ∀ code ∈ file.codes, code.serial = serial → code.expires ≤ time

theorem Effect.expired {file next : Grants} {now : Nat → Int} (h : Effect file now next)
    {serial : Nat} {time : Int} (hexpired : Expired file serial time) :
    Expired next serial time := by
  obtain ⟨hminted, hexpires⟩ := hexpired
  refine ⟨Nat.lt_of_lt_of_le hminted h.minted_le, ?_⟩
  intro code hcode hserial
  rcases h.codes hcode with ⟨old, hold, hevolves, -⟩ | ⟨hnew, -, -⟩
  · rw [hevolves.expires]
    exact hexpires old hold (hevolves.serial ▸ hserial)
  · omega

/-- The grants given for the code with this serial. -/
def grantsOf (file : Grants) (serial : Nat) : List Grant :=
  file.grants.filter (fun grant => grant.origin = serial)

/-- No code with this serial is unused while its expiry lies ahead of the call. -/
theorem Effect.grantsOf_eq {file next : Grants} {now : Nat → Int} (h : Effect file now next)
    (hsound : Sound file) {serial : Nat}
    (hdead : ∀ code ∈ file.codes, code.serial = serial → code.used = true ∨ code.expires ≤ now 1) :
    grantsOf next serial = grantsOf file serial := by
  unfold grantsOf
  rcases h.grants hsound with hsame | ⟨code, hcode, grant, hused, hexpires, horigin, hgrants, -⟩
  · rw [hsame]
  · have hother : grant.origin ≠ serial := by
      intro hserial
      rcases hdead code hcode (horigin ▸ hserial) with hcontra | hcontra
      · rw [hused] at hcontra
        cases hcontra
      · omega
    rw [hgrants, List.filter_append, List.filter_singleton]
    simp [hother]

theorem sound_noGrants : Sound noGrants :=
  ⟨by simp [noGrants], List.nodup_nil, by simp [noGrants], by simp [noGrants], List.nodup_nil⟩

theorem sound_after (sha : String → String) (calls : List Call) :
    Sound (after (step sha) noGrants calls) :=
  after_invariant (fun file call hsound => (step_effect sha file call).sound hsound)
    sound_noGrants calls

theorem grantsOf_after_spent (sha : String → String) {file : Grants} (hsound : Sound file)
    {serial : Nat} (hspent : Spent file serial) (calls : List Call) :
    grantsOf (after (step sha) file calls) serial = grantsOf file serial := by
  induction calls generalizing file with
  | nil => rfl
  | cons call calls ih =>
    have heffect := step_effect sha file call
    rw [after_cons, ih (heffect.sound hsound) (heffect.spent hspent)]
    exact heffect.grantsOf_eq hsound (fun code hcode hserial => Or.inl (hspent.2 code hcode hserial))

theorem grantsOf_after_expired (sha : String → String) {file : Grants} (hsound : Sound file)
    {serial : Nat} {time : Int} (hexpired : Expired file serial time) (calls : List Call)
    (hclock : ∀ call ∈ calls, ∀ n, time ≤ call.now n) :
    grantsOf (after (step sha) file calls) serial = grantsOf file serial := by
  induction calls generalizing file with
  | nil => rfl
  | cons call calls ih =>
    have heffect := step_effect sha file call
    have hlater : ∀ other ∈ calls, ∀ n, time ≤ other.now n := fun other hother =>
      hclock other (List.mem_cons_of_mem call hother)
    rw [after_cons, ih (heffect.sound hsound) (heffect.expired hexpired) hlater]
    apply heffect.grantsOf_eq hsound
    intro code hcode hserial
    have hread := hclock call List.mem_cons_self 1
    exact Or.inr (Int.le_trans (hexpired.2 code hcode hserial) hread)

/-! ### A clock that does not go back -/

/-- The readings of the calls, in order, lie between the two times and never go back. -/
def Forward : Int → List Call → Int → Prop
  | start, [], stop => start ≤ stop
  | start, call :: calls, stop =>
    ∃ mid, Monotone call.now ∧ (∀ n, start ≤ call.now n ∧ call.now n ≤ mid) ∧
      Forward mid calls stop

/-- What every call keeps, with the time it is true at moved on, holds at the end of a run. -/
theorem after_forward {sha : String → String} {P : Grants → Int → Prop}
    (hstep : ∀ file call start stop, Monotone call.now →
      (∀ n, start ≤ call.now n ∧ call.now n ≤ stop) → Sound file → P file start →
        P (step sha file call).1 stop)
    (hlater : ∀ file start stop, start ≤ stop → P file start → P file stop)
    {file : Grants} (hsound : Sound file) {start stop : Int} (hP : P file start)
    (calls : List Call) (hforward : Forward start calls stop) :
    P (after (step sha) file calls) stop := by
  induction calls generalizing file start with
  | nil => exact hlater file start stop hforward hP
  | cons call calls ih =>
    obtain ⟨mid, hmono, hclock, hrest⟩ := hforward
    exact ih ((step_effect sha file call).sound hsound)
      (hstep file call start mid hmono hclock hsound hP) hrest

/-- Neither used nor expired. -/
def Live (code : PairCode) (time : Int) : Prop := code.used = false ∧ time < code.expires

def OneLive (file : Grants) (time : Int) : Prop :=
  ∀ a ∈ file.codes, ∀ b ∈ file.codes, Live a time → Live b time → a = b

theorem Evolves.live {code next : PairCode} (h : Evolves code next) {start stop : Int}
    (hle : start ≤ stop) (hlive : Live next stop) : Live code start := by
  obtain ⟨hused, hexpires⟩ := hlive
  refine ⟨?_, by rw [← h.expires]; omega⟩
  by_contra hcode
  rw [h.used (by simpa using hcode)] at hused
  cases hused

theorem Effect.oneLive {file next : Grants} {now : Nat → Int} (h : Effect file now next)
    (hsound : Sound file) {start stop : Int} (hclock : ∀ n, start ≤ now n ∧ now n ≤ stop)
    (hone : OneLive file start) : OneLive next stop := by
  have hle : start ≤ stop := Int.le_trans (hclock 0).1 (hclock 0).2
  have hretired : ∀ code : PairCode, Live code stop →
      (code.used = false → ∃ n, code.expires ≤ now n) → False := by
    intro code hlive hexpires
    obtain ⟨n, hn⟩ := hexpires hlive.1
    have hread := (hclock n).2
    have hlater := hlive.2
    omega
  intro a ha b hb hlivea hliveb
  apply List.inj_on_of_nodup_map (h.serials hsound) ha hb
  rcases h.codes ha with ⟨olda, hola, heva, hreta⟩ | ⟨hsera, -, hminta⟩
  · rcases h.codes hb with ⟨oldb, holb, hevb, hretb⟩ | ⟨-, -, hmintb⟩
    · have hsame := hone olda hola oldb holb (heva.live hle hlivea) (hevb.live hle hliveb)
      rw [heva.serial, hevb.serial, hsame]
    · exact absurd (hreta (by omega)) (hretired a hlivea)
  · rcases h.codes hb with ⟨oldb, holb, hevb, hretb⟩ | ⟨hserb, -, -⟩
    · exact absurd (hretb (by omega)) (hretired b hliveb)
    · exact hsera.trans hserb.symm

/-! ### Counted failures -/

/-- When the failed attempts on the code with this serial were counted. -/
def times (file : Grants) (serial : Nat) : List Int :=
  (file.failed.filter (fun failure => failure.1 = serial)).map (·.2)

/-- Those of them in the minute after a time. -/
def timesWithin (file : Grants) (serial : Nat) (start : Int) : List Int :=
  (times file serial).filter (fun failure => start < failure ∧ failure ≤ start + 60000)

structure Windowed (file : Grants) (time : Int) : Prop where
  serial_lt : ∀ failure ∈ file.failed, failure.1 < file.minted
  /-- A code still holds its failures of the last minute. -/
  held : ∀ code ∈ file.codes,
    code.failures.filter (fun failure => time - 60000 < failure) =
      (times file code.serial).filter (fun failure => time - 60000 < failure)
  atMost : ∀ serial start, (timesWithin file serial start).length ≤ 5

theorem filter_later {start stop : Int} (hle : start ≤ stop) (list : List Int) :
    (list.filter (fun failure => start - 60000 < failure)).filter
        (fun failure => stop - 60000 < failure) =
      list.filter (fun failure => stop - 60000 < failure) := by
  rw [List.filter_filter]
  apply List.filter_congr
  intro failure _
  rw [Bool.eq_iff_iff, Bool.and_eq_true, decide_eq_true_eq, decide_eq_true_eq]
  omega

theorem Windowed.later {file : Grants} {start stop : Int} (hle : start ≤ stop)
    (h : Windowed file start) : Windowed file stop := by
  refine ⟨h.serial_lt, ?_, h.atMost⟩
  intro code hcode
  rw [← filter_later hle code.failures, h.held code hcode, filter_later hle]

/-- The recent failures are all that lie in the last minute. -/
theorem filter_recentFailures {now : Nat → Int} {code : PairCode} {time : Int}
    (hclock : ∀ n < code.failures.length, now n ≤ time) :
    (recentFailures now code).filter (fun failure => time - 60000 < failure) =
      code.failures.filter (fun failure => time - 60000 < failure) := by
  apply filter_filterAt
  intro failure _ hfailure n hn
  have hread := hclock n hn
  simp only [decide_eq_true_eq] at hfailure ⊢
  omega

/-- Counting a failure at `last`, when less than five are recent, breaks no window. -/
theorem length_window_le {list recent : List Int} {last : Int}
    (hheld : recent.filter (fun failure => last - 60000 < failure) =
      list.filter (fun failure => last - 60000 < failure))
    (hrecent : recent.length < 5) {start : Int}
    (hold : (list.filter (fun failure => start < failure ∧ failure ≤ start + 60000)).length ≤ 5) :
    ((list ++ [last]).filter
      (fun failure => start < failure ∧ failure ≤ start + 60000)).length ≤ 5 := by
  rw [List.filter_append, List.length_append]
  by_cases hlast : start < last ∧ last ≤ start + 60000
  · have hin : (list.filter (fun failure => start < failure ∧ failure ≤ start + 60000)).length ≤
        (recent.filter (fun failure => last - 60000 < failure)).length := by
      rw [hheld]
      apply List.Sublist.length_le
      apply List.monotone_filter_right
      intro failure hfailure
      simp only [decide_eq_true_eq] at hfailure ⊢
      omega
    have hfour := Nat.le_trans hin (List.length_filter_le _ recent)
    have hone : ([last].filter
        (fun failure => start < failure ∧ failure ≤ start + 60000)).length ≤ 1 :=
      List.length_filter_le _ [last]
    omega
  · rw [List.filter_singleton]
    simpa [hlast] using hold

theorem times_append (file : Grants) (codes : List PairCode) (serial other : Nat) (last : Int) :
    times { file with codes, failed := file.failed ++ [(serial, last)] } other =
      if serial = other then times file other ++ [last] else times file other := by
  unfold times
  rw [List.filter_append, List.filter_singleton, List.map_append]
  split <;> simp_all

theorem Effect.windowed {file next : Grants} {now : Nat → Int} (h : Effect file now next)
    (hsound : Sound file) {start stop : Int} (hmono : Monotone now)
    (hclock : ∀ n, start ≤ now n ∧ now n ≤ stop) (hwin : Windowed file start) :
    Windowed next stop := by
  have hle : start ≤ stop := Int.le_trans (hclock 0).1 (hclock 0).2
  have hlater := hwin.later hle
  cases h with
  | unchanged => exact hlater
  | minted new hserial hburned hfailures =>
    refine ⟨?_, ?_, hwin.atMost⟩
    · intro failure hfailure
      exact Nat.lt_succ_of_lt (hwin.serial_lt failure hfailure)
    · intro code hcode
      rcases List.mem_append.mp hcode with hcode | hcode
      · obtain ⟨old, hold, rfl | ⟨rfl, -⟩⟩ := retireCodes_cases hcode
        · exact hlater.held old hold
        · exact hlater.held code hold
      · have hnone : times file new.serial = [] := by
          unfold times
          rw [List.map_eq_nil_iff, List.filter_eq_nil_iff]
          intro failure hfailure
          have hlt := hwin.serial_lt failure hfailure
          simp only [decide_eq_true_eq]
          omega
        rw [List.mem_singleton.mp hcode]
        change new.failures.filter _ = (times file new.serial).filter _
        rw [hnone, hfailures]
  | cancelled id =>
    exact ⟨hwin.serial_lt, fun code hcode => hlater.held code (List.mem_of_mem_filter hcode),
      hwin.atMost⟩
  | probed wanted =>
    refine ⟨hwin.serial_lt, ?_, hwin.atMost⟩
    intro code hcode
    rcases mem_updateAt hcode with hold | ⟨old, hfind, rfl⟩
    · exact hlater.held code hold
    · exact hlater.held old (findAt_some hfind).1
  | granted wanted new grant hfind hused hexpires horigin =>
    refine ⟨hwin.serial_lt, ?_, hwin.atMost⟩
    intro code hcode
    rcases mem_updateAt hcode with hold | ⟨old, hfind, rfl⟩
    · exact hlater.held code hold
    · exact hlater.held old (findAt_some hfind).1
  | failed wanted found hfind hrecent =>
    have hfound := (findAt_some hfind).1
    have hlast := hclock (found.failures.length + 2)
    have hread : ∀ n < found.failures.length, later now 2 n ≤ now (found.failures.length + 2) :=
      fun n hn => hmono (by omega)
    have hstop : ∀ n < found.failures.length, later now 2 n ≤ stop := fun n _ => (hclock _).2
    refine ⟨?_, ?_, ?_⟩
    · intro failure hfailure
      rcases List.mem_append.mp hfailure with hfailure | hfailure
      · exact hwin.serial_lt failure hfailure
      · rw [List.mem_singleton.mp hfailure]
        exact hsound.serial_lt found hfound
    · intro code hcode
      rw [times_append]
      rcases mem_updateAt_serial (Evolves.countFailure _ _) hsound.serials hfind hcode with
        rfl | ⟨hold, hserial⟩
      · change (recentFailures (later now 2) found ++ [_]).filter _ =
          (if found.serial = found.serial then times file found.serial ++ [_]
            else times file found.serial).filter _
        rw [if_pos rfl, List.filter_append, List.filter_append, filter_recentFailures hstop,
          hlater.held found hfound]
      · rw [if_neg (Ne.symm hserial)]
        exact hlater.held code hold
    · intro serial first
      unfold timesWithin
      rw [times_append]
      split
      · rename_i hserial
        subst hserial
        have hheld := (hwin.later hlast.1).held found hfound
        rw [← filter_recentFailures hread] at hheld
        exact length_window_le hheld hrecent (hwin.atMost found.serial first)
      · exact hwin.atMost serial first

theorem oneLive_noGrants (time : Int) : OneLive noGrants time := by
  intro a ha
  simp [noGrants] at ha

theorem windowed_noGrants (time : Int) : Windowed noGrants time :=
  ⟨by simp [noGrants], by simp [noGrants], by simp [noGrants, timesWithin, times]⟩

theorem oneLive_after (sha : String → String) {calls : List Call} {start stop : Int}
    (hforward : Forward start calls stop) : OneLive (after (step sha) noGrants calls) stop := by
  apply after_forward _ _ sound_noGrants (oneLive_noGrants start) calls hforward
  · intro file call first last _ hclock hsound hone
    exact (step_effect sha file call).oneLive hsound hclock hone
  · intro file first last hle hone a ha b hb hlivea hliveb
    exact hone a ha b hb ((Evolves.refl a).live hle hlivea) ((Evolves.refl b).live hle hliveb)

theorem windowed_after (sha : String → String) {calls : List Call} {start stop : Int}
    (hforward : Forward start calls stop) : Windowed (after (step sha) noGrants calls) stop := by
  apply after_forward _ _ sound_noGrants (windowed_noGrants start) calls hforward
  · intro file call first last hmono hclock hsound hwin
    exact (step_effect sha file call).windowed hsound hmono hclock hwin
  · intro file first last hle hwin
    exact hwin.later hle

/-! ### Codes grant once -/

/-- The code with this serial was minted, and it was used, was burned, or was cancelled and is
    no longer in the file. -/
def Gone (file : Grants) (serial : Nat) : Prop :=
  serial < file.minted ∧
    ∀ code ∈ file.codes, code.serial = serial → code.used = true ∨ code.burned = true

theorem Sound.spent_of_gone {file : Grants} (h : Sound file) {serial : Nat}
    (hgone : Gone file serial) : Spent file serial :=
  ⟨hgone.1, fun code hcode hserial => (hgone.2 code hcode hserial).elim id (h.burned code hcode)⟩

theorem Sound.grantsOf_length {file : Grants} (h : Sound file) (serial : Nat) :
    (grantsOf file serial).length ≤ 1 := by
  have hcount := List.nodup_iff_count_le_one.mp h.once serial
  rw [List.count_eq_countP, List.countP_map, List.countP_eq_length_filter] at hcount
  exact hcount

/-- Whatever the clock reads, a code grants at most once and never after it was used, cancelled
    or burned. While the clock does not go back, it never grants after its expiry either, at
    most one code is live, and no minute has more than five counted failures of a code. -/
theorem codes_grant_once (sha : String → String) (calls : List Call) :
    (∀ serial, (grantsOf (after (step sha) noGrants calls) serial).length ≤ 1) ∧
    (∀ front back serial, calls = front ++ back → Gone (after (step sha) noGrants front) serial →
      grantsOf (after (step sha) noGrants calls) serial =
        grantsOf (after (step sha) noGrants front) serial) ∧
    (∀ start stop, Forward start calls stop →
      (∀ front back serial time, calls = front ++ back →
        Expired (after (step sha) noGrants front) serial time →
        (∀ call ∈ back, ∀ n, time ≤ call.now n) →
          grantsOf (after (step sha) noGrants calls) serial =
            grantsOf (after (step sha) noGrants front) serial) ∧
      OneLive (after (step sha) noGrants calls) stop ∧
      ∀ serial first, (timesWithin (after (step sha) noGrants calls) serial first).length ≤ 5) := by
  refine ⟨?_, ?_, ?_⟩
  · exact (sound_after sha calls).grantsOf_length
  · intro front back serial hcalls hgone
    have hsound := sound_after sha front
    rw [hcalls, after_append]
    exact grantsOf_after_spent sha hsound (hsound.spent_of_gone hgone) back
  · intro start stop hforward
    refine ⟨?_, oneLive_after sha hforward, (windowed_after sha hforward).atMost⟩
    intro front back serial time hcalls hexpired hclock
    rw [hcalls, after_append]
    exact grantsOf_after_expired sha (sound_after sha front) hexpired back hclock

/-- An install that mints and pairs. -/
def openInstall : Install :=
  { accessKey := "key", state := some .ok, publicUrl := some "https://board.example"
    localVouches := false, self := some { installId := "i", label := "l" }, storeId := "s" }

/-- Mints the code `ABCDEF-01234-56789`. -/
def mintAt (time : Int) : Call :=
  { op := .mint openInstall .ok [[10, 11, 12, 13, 14, 15]] [0, 1, 2, 3, 4, 5, 6, 7, 8, 9]
    now := fun _ => time }

/-- Presents it. -/
def pairAt (time : Int) : Call :=
  { op := .pair openInstall
      (some { code := some "ABCDEF-01234-56789", label := some []
              install := some "00000000-0000-0000-0000-000000000000" }) "g" "t"
    now := fun _ => time }

/-- A code that was refused as expired grants when the clock has gone back since. -/
theorem expired_code_grants :
    Expired (after (step id) noGrants [mintAt 0, pairAt 700000]) 0 700000 ∧
      (step id (after (step id) noGrants [mintAt 0]) (pairAt 700000)).2 =
        .pair (.refused 410 .codeSpent) ∧
      (grantsOf (after (step id) noGrants [mintAt 0, pairAt 700000]) 0).length = 0 ∧
      (grantsOf (after (step id) noGrants [mintAt 0, pairAt 700000, pairAt 10]) 0).length = 1 := by
  unfold Expired
  decide

/-- The code of the counterexample on a clock that goes on: it grants, and then no more. -/
theorem codes_grant_once_twice :
    grantsOf (after (step id) noGrants [mintAt 0, pairAt 5, pairAt 700000]) 0 =
        grantsOf (after (step id) noGrants [mintAt 0, pairAt 5]) 0 ∧
      OneLive (after (step id) noGrants [mintAt 0, pairAt 5, pairAt 700000]) 700000 := by
  have hall := codes_grant_once id [mintAt 0, pairAt 5, pairAt 700000]
  have hwithin : ∀ start time : Int, start ≤ time → ∀ _ : Nat, start ≤ time ∧ time ≤ time :=
    fun _ time hle _ => ⟨hle, Int.le_refl time⟩
  have hforward : Forward 0 [mintAt 0, pairAt 5, pairAt 700000] 700000 :=
    ⟨0, monotone_const, hwithin 0 0 (by decide), 5, monotone_const, hwithin 0 5 (by decide), 700000,
      monotone_const, hwithin 5 700000 (by decide), Int.le_refl 700000⟩
  have hgone : Gone (after (step id) noGrants [mintAt 0, pairAt 5]) 0 := by
    unfold Gone
    decide
  refine ⟨?_, (hall.2.2 0 700000 hforward).2.1⟩
  exact hall.2.1 [mintAt 0, pairAt 5] [pairAt 700000] 0 rfl hgone

section

variable {sha : String → String} {file minted : Grants} {install own : Install} {check : CheckCode}
  {bytes : List UInt8} {draws : List (List UInt8)} {now after : Nat → Int} {shown typed peer : String}
  {expiresAt : Int} {self : LinkSelf}

theorem findAt_concat {codes : List PairCode} {code : PairCode} (hcodes : ∀ row ∈ codes, row.id ≠ code.id) :
    findAt (fun _ row => decide (row.id = code.id)) now (codes ++ [code]) = some code := by
  induction codes generalizing now with
  | nil => exact if_pos (decide_eq_true rfl)
  | cons row rest ih =>
    obtain ⟨hrow, hrest⟩ := List.forall_mem_cons.mp hcodes
    exact (if_neg (by simpa using hrow)).trans (ih hrest)

theorem encode_mem {count : Nat} {c : Char} (h : c ∈ (encode bytes count).toList) : c ∈ alphabet := by
  rw [encode, String.toList_ofList] at h
  obtain ⟨value, -, rfl⟩ := List.mem_map.mp h
  have hall : ∀ n < 32, alphabet.getD n '0' ∈ alphabet := by decide
  exact hall _ (Nat.mod_lt _ (by decide))

/-- A shown code reads back as its id and secret. -/
theorem normalizeCode_shown {id tail : List Char} (hid : ∀ c ∈ id, c ∈ alphabet)
    (htail : ∀ c ∈ tail, c ∈ alphabet) :
    normalizeCode (String.ofList (id ++ '-' :: tail.take 5 ++ '-' :: tail.drop 5)) =
      String.ofList (id ++ tail) := by
  have hkept : ∀ c ∈ '-' :: alphabet, decide (upperCase c = [c] ∧
      (if c = 'I' || c = 'L' then '1' else if c = 'O' then '0' else c) = c) = true :=
    List.all_eq_true.mp (by decide)
  have hdash : ∀ c ∈ alphabet, decide (c ≠ '-') = true := List.all_eq_true.mp (by decide)
  have hall : ∀ c ∈ id ++ '-' :: tail.take 5 ++ '-' :: tail.drop 5, c ∈ '-' :: alphabet := by
    grind [List.mem_of_mem_take, List.mem_of_mem_drop]
  rw [normalizeCode, String.toList_ofList, List.flatMap_congr fun c hc => (of_decide_eq_true (hkept c (hall c hc))).1,
    List.flatMap_singleton', List.map_congr_left fun c hc => (of_decide_eq_true (hkept c (hall c hc))).2, List.map_id',
    List.filter_append, List.filter_append, List.filter_cons_of_neg (by decide),
    List.filter_cons_of_neg (by decide), List.append_assoc, ← List.filter_append, List.take_append_drop,
    List.filter_eq_self.mpr fun c hc => hdash c (hid c hc),
    List.filter_eq_self.mpr fun c hc => hdash c (htail c hc)]

theorem mintCode_minted (h : mintCode sha install check draws bytes now file = (minted, .minted shown expiresAt)) :
    ∃ draw ∈ draws, ∃ code : PairCode, code.id = encode draw 6 ∧ code.hash = sha (encode bytes 10) ∧
      code.expires = expiresAt ∧ code.used = false ∧ code.failures = [] ∧
      minted = { file with codes := retireCodes now file.codes ++ [code], minted := file.minted + 1 } ∧
      (∀ row ∈ retireCodes now file.codes, row.id ≠ code.id) ∧
      normalizeCode shown = String.ofList ((encode draw 6).toList ++ (encode bytes 10).toList) := by
  unfold mintCode at h
  split_ifs at h
  iterate 6 cases h
  dsimp only at h
  split at h
  · cases h
  · rename_i id hid
    unfold freshId at hid
    have hfresh := List.find?_some hid
    obtain ⟨draw, hdraw, rfl⟩ := List.mem_map.mp (List.mem_of_find?_eq_some hid)
    cases h
    exact ⟨draw, hdraw, _, rfl, rfl, rfl, rfl, rfl, rfl, by simpa using hfresh,
      normalizeCode_shown (fun _ => encode_mem) fun _ => encode_mem⟩

/-- **A minted code pairs**, however it is typed, until it expires. -/
theorem minted_code_pairs (hdraws : ∀ draw ∈ draws, draw.length = 6) (hbytes : bytes.length = 10)
    (hmint : mintCode sha install check draws bytes now file = (minted, .minted shown expiresAt))
    (htyped : normalizeCode typed = normalizeCode shown) (hafter : ∀ n, after n < expiresAt)
    (hkey : own.accessKey ≠ "") (hopen : pairable own own.state = true) (hself : own.self = some self)
    (hpeer : isInstallId peer = true) (label : JsonText.Text) (grantId token : String) :
    ∃ grant codes, pairIncoming sha own (some ⟨some typed, some peer, some label⟩) grantId token after minted =
      ({ minted with codes, grants := file.grants ++ [grant] }, .granted grant token self own.storeId) := by
  obtain ⟨draw, hdraw, code, hid, hhash, rfl, hused, hnone, rfl, hfresh, hshown⟩ :=
    mintCode_minted hmint
  rw [hshown] at htyped
  have hsix : (encode draw 6).toList.length = 6 := by simp [encode, hdraws draw hdraw]
  have hten : (encode bytes 10).toList.length = 10 := by simp [encode, hbytes]
  have hvalid : validCode (normalizeCode typed) = true := by
    simpa [htyped, validCode, hsix, hten, or_imp] using
      ⟨@encode_mem draw 6, @encode_mem bytes 10⟩
  have hcode : codeId (normalizeCode typed) = code.id := by
    rw [htyped, codeId, String.toList_ofList, List.take_left' hsix, String.ofList_toList, hid]
  have htail : codeSecret (normalizeCode typed) = encode bytes 10 := by
    rw [htyped, codeSecret, String.toList_ofList, List.drop_left' hsix, String.ofList_toList]
  unfold pairIncoming
  simp [hvalid, hcode, htail, findAt_concat hfresh, hhash, hused, not_le.mpr (hafter _),
    recentFailures, hnone, filterAt, hpeer, hkey, hopen, hself]

end

theorem minted_code_pairs_typed :
    ∃ grant codes, pairIncoming id openInstall
        (some ⟨some "abcdefoi2345-6789", some "00000000-0000-0000-0000-000000000000", some []⟩) "g" "t" (fun _ => 5)
        (after (step id) noGrants [mintAt 0]) = (⟨codes, [grant], 1, []⟩, .granted grant "t" ⟨"i", "l"⟩ "s") :=
  @minted_code_pairs id noGrants _ openInstall openInstall .ok [0, 1, 2, 3, 4, 5, 6, 7, 8, 9]
    [[10, 11, 12, 13, 14, 15]] (fun _ => 0) _ "ABCDEF-01234-56789" _ _ 600000 _ (by decide) (by decide)
    (Prod.ext rfl (by decide)) (by decide) (fun _ => by decide) (by decide) (by decide) rfl
    (by decide) [] "g" "t"

end Delegatus.PairingCodes
