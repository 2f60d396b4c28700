import LearnCLinux.Library.Fifo
import LearnCLinux.ThreadPool.Steps
import LearnCLinux.ThreadPool.Locks
import LearnCLinux.ThreadPool.Queue
import LearnCLinux.ThreadPool.Accounting
import LearnCLinux.ThreadPool.Wakeups
import LearnCLinux.Library.SlotTable
import LearnCLinux.ThreadPool.Table
import LearnCLinux.ThreadPool.Shutdown
import LearnCLinux.ThreadPool.Ownership
import LearnCLinux.EpollThreadModel.Code
import LearnCLinux.EpollThreadModel.Descriptors
import LearnCLinux.Library.Crc
import LearnCLinux.SocketRaw.Crc
import LearnCLinux.ThreadPool.Terminated
import LearnCLinux.ThreadPool.Tasks
import LearnCLinux.ThreadPool.Progress
import LearnCLinux.ThreadPool.WindDown
import LearnCLinux.EpollThreadModel.Disconnects
import LearnCLinux.SocketRaw.Ping
import LearnCLinux.SocketRaw.Target
import LearnCLinux.SocketRaw.Replies
import LearnCLinux.IoModel.Select
import LearnCLinux.IoModel.Epoll
import LearnCLinux.Chat.Server
import LearnCLinux.Chat.Delivery
import LearnCLinux.Chat.ThreadServer
import LearnCLinux.EpollThreadModel.Connections
import LearnCLinux.Contacts.Memory
import LearnCLinux.Contacts.Code
import LearnCLinux.Contacts.Operations
import LearnCLinux.Contacts.ReadBack
import LearnCLinux.Contacts.Book
import LearnCLinux.Library.Access
import LearnCLinux.SocketRaw.Reads
import LearnCLinux.SocketRaw.Request
import LearnCLinux.Library.OnesComplement
import LearnCLinux.SocketRaw.Checksum
import LearnCLinux.SocketRaw.Statistics
import LearnCLinux.SocketRaw.FailedSends
import LearnCLinux.SocketRaw.Printed
import LearnCLinux.ThreadPool.Frees
import LearnCLinux.Process.Sem
import LearnCLinux.LinkList.Code
import LearnCLinux.LinkList.Sequence
import LearnCLinux.LinkList.Refinement
import LearnCLinux.Library.Rearrangement
import LearnCLinux.QuickSort.Code
import LearnCLinux.QuickSort.Partition
import LearnCLinux.QuickSort.Range
import LearnCLinux.QuickSort.Pivot
import LearnCLinux.QuickSort.Sorted
import LearnCLinux.Library.ErrorDetection
import LearnCLinux.SocketRaw.Detection
import LearnCLinux.Library.Collisions
import LearnCLinux.SocketRaw.Collisions
import LearnCLinux.Contacts.Teardown
import LearnCLinux.Contacts.Menu
import LearnCLinux.Contacts.Session
import LearnCLinux.Chat.PushFd
import LearnCLinux.Chat.ClientTable
import LearnCLinux.Chat.Broadcast
import LearnCLinux.IoModel.SentBytes
import LearnCLinux.Thread.ThreadSem
import LearnCLinux.Thread.ThreadLock
import LearnCLinux.Exmaple.Tcp
import LearnCLinux.Exmaple.TcpServer
import LearnCLinux.IoModel.Client
import LearnCLinux.Exmaple.Udp
import LearnCLinux.IoModel.Broadcast
