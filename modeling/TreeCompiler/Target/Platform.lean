/-
The platforms that code can be generated for.
-/
namespace TreeCompiler.Target

/-- How functions pass arguments and results. -/
inductive CallConv where
  | systemV | windowsFastcall | appleAarch64
  deriving DecidableEq, Repr

def CallConv.text : CallConv → String
  | systemV => "system_v"
  | windowsFastcall => "windows_fastcall"
  | appleAarch64 => "apple_aarch64"

/-- The name of a calling convention in error messages. -/
def CallConv.title : CallConv → String
  | systemV => "SystemV"
  | windowsFastcall => "WindowsFastcall"
  | appleAarch64 => "AppleAarch64"

/-- The format of object files. -/
inductive ObjectFormat where
  | elf64 | macho64 | coff
  deriving DecidableEq, Repr

def ObjectFormat.text : ObjectFormat → String
  | elf64 => "elf64"
  | macho64 => "macho64"
  | coff => "coff"

/-- What code generation has to know about a platform. -/
structure Platform where
  callConv : CallConv
  format : ObjectFormat
  /-- Whether each load of an address leaves a label in the object file. -/
  labelsAddressLoads : Bool := false
  deriving DecidableEq, Repr

namespace Platform

/-- The machine the compiler runs on. -/
def host : Platform := { callConv := .systemV, format := .elf64 }

/-- The platforms by the name of their target triple. -/
def supported : List (String × Platform) :=
  [("x86_64", ⟨.systemV, .elf64, false⟩),
   ("x86_64-unknown-linux-gnu", ⟨.systemV, .elf64, false⟩),
   ("x86_64-unknown-linux-musl", ⟨.systemV, .elf64, false⟩),
   ("aarch64-unknown-linux-gnu", ⟨.systemV, .elf64, false⟩),
   ("riscv64gc-unknown-linux-gnu", ⟨.systemV, .elf64, true⟩),
   ("s390x-unknown-linux-gnu", ⟨.systemV, .elf64, false⟩),
   ("x86_64-pc-windows-msvc", ⟨.windowsFastcall, .coff, false⟩),
   ("x86_64-apple-darwin", ⟨.systemV, .macho64, false⟩),
   ("aarch64-apple-darwin", ⟨.appleAarch64, .macho64, false⟩)]

/-- The platform that a target triple names. -/
def ofTriple? (triple : String) : Option Platform := supported.lookup triple

end Platform

end TreeCompiler.Target
