import LearnLinux.Mm.Proofs.Malloc
import LearnLinux.Sched.Proofs.Interruptible
import LearnLinux.Sched.Proofs.Signal
import LearnLinux.Sched.Proofs.Timer
import LearnLinux.Sched.Proofs.Process
import LearnLinux.Sched.Proofs.Kill
import LearnLinux.Sched.Proofs.Schedule
import LearnLinux.Fs.Proofs.BlockDev
import LearnLinux.Fs.Proofs.PipeCopy
import LearnLinux.Fs.Proofs.OpenFiles
import LearnLinux.Fs.Proofs.InodeTable
import LearnLinux.Fs.Proofs.Returned
import LearnLinux.Fs.Proofs.ExecPaths
import LearnLinux.Fs.Permission
import LearnLinux.Fs.Proofs.Super
import LearnLinux.Ipc.Proofs.Sem
import LearnLinux.Ipc.Proofs.RwlockCancel
import LearnLinux.Ipc.Proofs.MqWakeups
import LearnLinux.Ipc.Proofs.MqNotify
import LearnLinux.Drivers.Proofs.Console
import LearnLinux.Drivers.Proofs.Query
import LearnLinux.Drivers.Proofs.Request
import LearnLinux.Drivers.Proofs.TtyRead
import LearnLinux.Sched.Ids
import LearnLinux.Hoc.Code
import LearnLinux.Hoc.Lex
import LearnLinux.Ipc.RwlockErrors
import LearnLinux.Sched.Mktime
