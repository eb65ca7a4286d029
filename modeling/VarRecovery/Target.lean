/-!
Target descriptions: an architecture, a vendor and an operating system, read from and written as
`architecture-vendor-os`.
-/

set_option autoImplicit false

namespace VarRecovery

inductive Architecture where
  | x86
  | x86_64
deriving DecidableEq, Repr, Inhabited

inductive Vendor where
  | unknown
  | pc
  | apple
deriving DecidableEq, Repr, Inhabited

inductive OperatingSystem where
  | linux
  | macOs
  | windows
deriving DecidableEq, Repr, Inhabited

structure Target where
  architecture : Architecture
  vendor : Vendor
  operatingSystem : OperatingSystem
deriving DecidableEq, Repr, Inhabited

inductive TargetError where
  | malformed (text : String)
  | unsupportedArchitecture
  | unsupportedVendor
  | unsupportedOperatingSystem
  | inconsistent
deriving DecidableEq, Repr

namespace Architecture

/-- Both architectures have several spellings, of which `text` writes the first. -/
def ofText? : String → Option Architecture
  | "x86" | "i386" | "i686" => some .x86
  | "x86_64" | "amd64" => some .x86_64
  | _ => none

def text : Architecture → String
  | .x86 => "x86"
  | .x86_64 => "x86_64"

def pointerBytes : Architecture → Nat
  | .x86 => 4
  | .x86_64 => 8

theorem ofText?_text (a : Architecture) : ofText? a.text = some a := by
  cases a <;> rfl

end Architecture

namespace Vendor

def ofText? : String → Option Vendor
  | "unknown" => some .unknown
  | "pc" => some .pc
  | "apple" => some .apple
  | _ => none

def text : Vendor → String
  | .unknown => "unknown"
  | .pc => "pc"
  | .apple => "apple"

theorem ofText?_text (v : Vendor) : ofText? v.text = some v := by
  cases v <;> rfl

end Vendor

namespace OperatingSystem

def ofText? : String → Option OperatingSystem
  | "linux" => some .linux
  | "macos" | "darwin" => some .macOs
  | "windows" => some .windows
  | _ => none

def text : OperatingSystem → String
  | .linux => "linux"
  | .macOs => "macos"
  | .windows => "windows"

theorem ofText?_text (o : OperatingSystem) : ofText? o.text = some o := by
  cases o <;> rfl

end OperatingSystem

namespace TargetError

def message : TargetError → String
  | .malformed text =>
    "the format of triple must be `architecture-vendor-os`: but got `" ++ text ++ "`"
  | .unsupportedArchitecture => "given architecture is not supported"
  | .unsupportedVendor => "given vendor is not supported"
  | .unsupportedOperatingSystem => "given operating system is not supported"
  | .inconsistent => "given triple consists of invalid combination"

end TargetError

namespace Target

-- A part that is there but unknown is reported before a later part that is missing.
def ofParts (text : String) : List String → Except TargetError Target
  | [] => .error (.malformed text)
  | arch :: rest =>
    match Architecture.ofText? arch with
    | none => .error .unsupportedArchitecture
    | some architecture =>
      match rest with
      | [] => .error (.malformed text)
      | vendor :: rest =>
        match Vendor.ofText? vendor with
        | none => .error .unsupportedVendor
        | some vendor =>
          match rest with
          | [] => .error (.malformed text)
          | os :: rest =>
            match OperatingSystem.ofText? os with
            | none => .error .unsupportedOperatingSystem
            | some operatingSystem =>
              if rest ≠ [] then .error (.malformed text)
              else if vendor = .apple ∧ operatingSystem ≠ .macOs then .error .inconsistent
              else .ok { architecture, vendor, operatingSystem }

/-- Reads `architecture-vendor-os`. An Apple target runs macOS only. -/
def parse (text : String) : Except TargetError Target :=
  ofParts text (text.splitOn "-")

def text (t : Target) : String :=
  t.architecture.text ++ "-" ++ t.vendor.text ++ "-" ++ t.operatingSystem.text

def generic : Target :=
  { architecture := .x86_64, vendor := .unknown, operatingSystem := .linux }

end Target

end VarRecovery
