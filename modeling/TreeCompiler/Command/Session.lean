/-
What a command does to the world, one step at a time.

A session is data: a program that asks for files, prints lines and has code generated is a tree of
its possible requests.  Whoever runs it decides what a file is, so a session can be run on the disk
or on a folder in memory.
-/
import TreeCompiler.Target.Generator

namespace TreeCompiler.Command

/-- What is written to a file. -/
inductive Content where
  | text (s : String)
  | object (o : Target.Object) (listings : List Target.Listing)

/-- The rest of a command. -/
inductive Session where
  | exit (status : Nat)
  | print (text : String) (rest : Session)
  | printError (text : String) (rest : Session)
  /-- Read a file.  The rest depends on its text, or on why there is none. -/
  | read (path : String) (rest : Except String String → Session)
  /-- Write a file.  The rest depends on whether that worked. -/
  | write (path : String) (content : Content) (rest : Except String Unit → Session)
  /-- Generate code for a module.  The rest depends on what comes of it. -/
  | generate (code : IR.Module) (rest : Target.Compilation → Session)

end TreeCompiler.Command
