import LinuxKernel.V098.Fs.MsdosDate

/-!
# LinuxKernel.V098.Kernel.Mktime

`kernel_mktime` of `kernel/mktime.c`: **the time at boot**, from the clock.
-/

namespace LinuxKernel.V098.Kernel.Mktime

open Calendar Fs.MsdosDate

/-- `struct mktime`; the year counts from 1900, the month from 0. -/
structure Clock where
  (sec min hour day : Int)
  mon : Nat
  year : Int

/-- `month`, in days. -/
def month : List Int := [0, 31, 60, 91, 121, 152, 182, 213, 244, 274, 305, 335]

def kernelMktime (time : Clock) : Option Int :=
  let year := time.year - 70
  month[time.mon]?.map fun first =>
    int32 (86400 * 365 * year + 86400 * (year + 1).tdiv 4 + 86400 * first -
      (if time.mon > 1 ∧ (year + 2).tmod 4 ≠ 0 then 86400 else 0) + 86400 * (time.day - 1) +
      3600 * time.hour + 60 * time.min + time.sec)

theorem month_eq : ∀ k < 12,
    month[k]? = some (daysBeforeMonth 4 (k + 1) : Int) ∧ daysBeforeMonth 4 (k + 1) ≤ 335 := by
  decide

/-- **The seconds since 1970**, at second `s` of any day until the end of 2037. -/
theorem kernelMktime_exact (d : Date) (s : Nat) (h : 1970 ≤ d.year) (h' : d.year < 2038)
    (hs : s < 86400) :
    kernelMktime ⟨s % 60, s / 60 % 60, s / 3600, d.day, d.month - 1, d.year - 1900⟩ =
      some (86400 * (d.number - epoch.number : Int) + s) := by
  obtain ⟨k, hk⟩ := Nat.exists_eq_add_of_le' d.month_pos
  have hle := d.month_le
  have hday := d.day_pos
  have hday' := d.day_le.trans (monthDays_le ..)
  obtain ⟨hmonth, hmax⟩ := month_eq k (by omega)
  have hleap : IsLeap d.year ↔ d.year % 4 = 0 := by
    unfold IsLeap
    omega
  have hbefore : daysBeforeMonth 4 (k + 1) = daysBeforeMonth d.year (k + 1) +
      if k > 1 ∧ d.year % 4 ≠ 0 then 1 else 0 := by
    rw [daysBeforeMonth_leap (y := 4) (by decide) (by omega) (by omega)]
    by_cases hy : d.year % 4 = 0
    · rw [daysBeforeMonth_leap (hleap.mpr hy) (by omega) (by omega)]
      split <;> split <;> omega
    · rw [daysBeforeMonth_plain (mt hleap.mp hy) (by omega) (by omega)]
      split <;> split <;> omega
  have hyear := daysBeforeYear_eq d.year
  have hepoch := daysBeforeYear_eq 1970
  unfold kernelMktime
  dsimp only
  rw [epoch_number, Date.number, hk, Nat.add_sub_cancel, hmonth, Option.map_some,
    Int.tdiv_eq_ediv_of_nonneg (by omega), Int.tmod_eq_emod_of_nonneg (by omega)]
  refine congrArg some ((congrArg int32 ?_).trans (int32_eq ?_ ?_))
  all_goals split at hbefore <;> try split
  all_goals omega

/-- The first second of 1970. -/
theorem kernelMktime_exact_epoch :
    kernelMktime ⟨0, 0, 0, 1, 0, 70⟩ = some (86400 * (epoch.number - epoch.number : Int) + 0) :=
  kernelMktime_exact epoch 0 (by decide) (by decide) (by decide)

end LinuxKernel.V098.Kernel.Mktime
