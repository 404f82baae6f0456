import Wgs.RedBlack.Balance
import Wgs.RedBlack.Overflow
import Wgs.RedBlack.Identity
import Wgs.RedBlack.RotateBack
import Wgs.DevFifo.Ioctl
import Wgs.DevFifo.FlatFile
import Wgs.DevFifo.Init
import Wgs.DevFifo.Clamp
import Wgs.DevFifo.FailedWrite
import Wgs.MemDev
import Wgs.HighTimer
import Wgs.Base64.Bounds
import Wgs.Base64.Standard
import Wgs.DList.Run
import Wgs.DList.Edits
import Wgs.LinkQueue
import Wgs.Stack.Interface
import Wgs.Stack.Lifetimes
import Wgs.Sorting.Quick
import Wgs.Sorting.Heap
import Wgs.Sorting.Shell
import Wgs.Sorting.Inversions
import Wgs.Sorting.TwoArray
import Wgs.Sorting.Quadratic
import Wgs.Sorting.Sentinel
import Wgs.Sorting.GapSwap
import Wgs.Sorting.Exchange
import Wgs.LinkList
import Wgs.NodeList.BubbleSort
import Wgs.NodeList.MergeSort
import Wgs.Joseph
import Wgs.RingDelete
import Wgs.Sudoku
import Wgs.HashProbe
import Wgs.BinarySearch
import Wgs.BlockSearch
import Wgs.ErrorRecord.Report
import Wgs.Pthread.Deadlock
import Wgs.Pthread.Shutdown
import Wgs.ErrorRecord.Names
import Wgs.Palindrome
import Wgs.Adder
import Wgs.Bottles
import Wgs.Nicomachus
import Wgs.BaseConversion
import Wgs.Huawei.PalindromeTest
import Wgs.Huawei.SamePart
import Wgs.MoveZeros
import Wgs.Distinct
import Wgs.CharSet
import Wgs.GradeQuery
import Wgs.Pinduoduo.TripleProduct
import Wgs.Pinduoduo.Assignment
import Wgs.Ucos.Prio
import Wgs.Ucos.Mem
import Wgs.Ucos.Msg
import Wgs.Ucos.Ready
import Wgs.Foundation.Programs
import Wgs.Ucos.PendList
import Wgs.Ucos.TickList
import Wgs.Foundation.Placement
import Wgs.Ucos.Kernel
import Wgs.Ucos.Machine
import Wgs.Ucos.Rules
import Wgs.Ucos.Consistency
import Wgs.Ucos.Services
import Wgs.Ucos.Scheduler
import Wgs.Ucos.System
import Wgs.Ucos.KernelRun
import Wgs.Ucos.Switches
import Wgs.Ucos.KernelTime
import Wgs.Ucos.Semaphores
