import UnixPrograms.AvlHeight
import UnixPrograms.AvlInsert
import UnixPrograms.AvlLevelOrder
import UnixPrograms.LinkedListRuns
import UnixPrograms.LinkedListRemovers
import UnixPrograms.ThreadPoolShutdown
import UnixPrograms.ThreadPoolProgress
import UnixPrograms.ThreadPoolWakeup
import UnixPrograms.Leftovers
import UnixPrograms.SigHandlersLock
import UnixPrograms.SigMask
import UnixPrograms.FileStreams
import UnixPrograms.FileRaces
import UnixPrograms.MenuFactorial
import UnixPrograms.Limbs
import UnixPrograms.MenuConverter
import UnixPrograms.MenuFibonacci
import UnixPrograms.MenuFibonacciRuns
import UnixPrograms.MenuInput
import UnixPrograms.Atoi
import UnixPrograms.AvlQueue
import UnixPrograms.ChecksumNames
import UnixPrograms.ConverterOld
import UnixPrograms.CopyLoops
import UnixPrograms.Factorial
import UnixPrograms.FibKyle
import UnixPrograms.FibWithCarry
import UnixPrograms.LinkedListDestroy
import UnixPrograms.LinkedListQueue
import UnixPrograms.LinkedListUses
import UnixPrograms.AvlTraversals
import UnixPrograms.AvlLifetime
import UnixPrograms.AvlDisplay
import UnixPrograms.AvlQueueFailures
import UnixPrograms.Div128
import UnixPrograms.FibKyleMain
import UnixPrograms.Fibo
import UnixPrograms.Int128
import UnixPrograms.ChecksumInPlace
import UnixPrograms.ChecksumVersions
import UnixPrograms.ServerLib
