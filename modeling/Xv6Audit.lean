import Xv6Audit.Lib.Prog
import Xv6Audit.Lib.Run
import Xv6Audit.Lib.Shared
import Xv6Audit.Lib.Ring
import Xv6Audit.Lib.Alloc
import Xv6Audit.Lib.LinkTree
import Xv6Audit.Lib.Forest
import Xv6Audit.Lib.DList
import Xv6Audit.Lib.Words
import Xv6Audit.Lib.Pool
import Xv6Audit.Param
import Xv6Audit.Disk.Block
import Xv6Audit.Log.Redo
import Xv6Audit.Log.View
import Xv6Audit.Log.Install
import Xv6Audit.Log.Atomic
import Xv6Audit.Log.Ops
import Xv6Audit.Log.Admission
import Xv6Audit.Audit.Record
import Xv6Audit.Audit.Text
import Xv6Audit.Audit.Flush
import Xv6Audit.File.Table
import Xv6Audit.File.LogHandle
import Xv6Audit.Vm.Copy
import Xv6Audit.File.Pipe
import Xv6Audit.File.PipeRead
import Xv6Audit.File.Sleepers
import Xv6Audit.File.Counts
import Xv6Audit.Audit.Dispatch
import Xv6Audit.Audit.Whitelist
import Xv6Audit.Audit.Attribution
import Xv6Audit.Audit.Columns
import Xv6Audit.Proc.Table
import Xv6Audit.Proc.Family
import Xv6Audit.Proc.Parents
import Xv6Audit.Proc.Wait
import Xv6Audit.Proc.Kill
import Xv6Audit.Proc.List
import Xv6Audit.Proc.Switch
import Xv6Audit.Proc.OneCpu
import Xv6Audit.Proc.Wakeup
import Xv6Audit.Proc.Life
import Xv6Audit.Proc.SleepLock
import Xv6Audit.Fs.Inode
import Xv6Audit.Fs.Itable
import Xv6Audit.Fs.Reuse
import Xv6Audit.Fs.Exact
import Xv6Audit.Fs.Content
import Xv6Audit.Fs.Trunc
import Xv6Audit.Fs.Blocks
import Xv6Audit.Fs.Dir
import Xv6Audit.Fs.View
import Xv6Audit.Fs.Names
import Xv6Audit.Fs.Edit
import Xv6Audit.Fs.Calls
import Xv6Audit.Fs.Links
import Xv6Audit.Fs.Sysfile
import Xv6Audit.Fs.Holders
import Xv6Audit.Fs.Lookups
import Xv6Audit.Fs.Refs
import Xv6Audit.Fs.Policy
import Xv6Audit.Fs.Sound
import Xv6Audit.Fs.DirTree
import Xv6Audit.Fs.LinkCount
import Xv6Audit.Fs.Dangling
import Xv6Audit.Fs.Hierarchy
import Xv6Audit.Fs.FileBytes
import Xv6Audit.Fs.ShortWrite
import Xv6Audit.Fs.Reserve
import Xv6Audit.Fs.Nodes
import Xv6Audit.Fs.Directory
import Xv6Audit.Fs.Path
import Xv6Audit.Fs.NameCalls
import Xv6Audit.Fs.FailedCalls
import Xv6Audit.Fs.OpenCalls
import Xv6Audit.File.Filewrite
import Xv6Audit.Bio.Cache
import Xv6Audit.Bio.Lru
import Xv6Audit.Bio.Levels
import Xv6Audit.Bio.Logged
import Xv6Audit.Bio.Transparent
import Xv6Audit.Bio.Dry
import Xv6Audit.Dev.Console
import Xv6Audit.Dev.VirtioDisk
import Xv6Audit.Mkfs.Image
import Xv6Audit.Mkfs.Format
import Xv6Audit.Mkfs.Place
import Xv6Audit.Mkfs.Iappend
import Xv6Audit.Mkfs.Build
import Xv6Audit.Mkfs.Main
import Xv6Audit.Mkfs.Mounted
import Xv6Audit.Sh.Parse
import Xv6Audit.Sh.Lex
import Xv6Audit.Sh.Grammar
import Xv6Audit.Sh.Correct
import Xv6Audit.Sh.Parsecmd
import Xv6Audit.Sh.Runcmd
import Xv6Audit.Vm.Phys
import Xv6Audit.Vm.Walk
import Xv6Audit.Vm.Map
import Xv6Audit.Vm.Access
import Xv6Audit.User.Memmove
import Xv6Audit.User.Printint
import Xv6Audit.User.Grep
